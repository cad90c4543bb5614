import MobileCode.Reference

/-! # Closures of methods

What a method can reach: fields and properties of its own type, methods of any type, and the
modules these are declared in. Each of the four is a sorted set.
-/
namespace MobileCode

structure MemberId where
  type : String
  name : String
  deriving DecidableEq, Inhabited, Repr

instance : Keyed MemberId := ⟨fun m => [m.type, m.name]⟩

def MemberId.display (m : MemberId) : String := m.type ++ "::" ++ m.name

structure Closure where
  fields : KeySet MemberId := []
  properties : KeySet MemberId := []
  methods : KeySet MethodKey := []
  modules : KeySet String := []
  deriving DecidableEq, Inhabited, Repr

namespace Closure

def merge (a b : Closure) : Closure where
  fields := KeySet.union a.fields b.fields
  properties := KeySet.union a.properties b.properties
  methods := KeySet.union a.methods b.methods
  modules := KeySet.union a.modules b.modules

/-- No state has to travel with the method. -/
def isStateless (c : Closure) : Bool := c.fields.isEmpty && c.properties.isEmpty

def hasField (c : Closure) (type name : String) : Bool := c.fields.contains ⟨type, name⟩
def hasProperty (c : Closure) (type name : String) : Bool := c.properties.contains ⟨type, name⟩

def hasMethod (c : Closure) (type name : String) : Bool :=
  c.methods.any fun k => k.type = type && k.name = name

end Closure
end MobileCode
