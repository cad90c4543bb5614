import MobileCode.Wire.Printable
import MobileCode.Wire.Request

/-! # Requests and answers by mail

A message names its request in the subject. The body of a request has seven fields with a
separator between them, so no field may contain it; the flag for the main thread does not travel.
-/
namespace MobileCode

structure Mail where
  id : Nat := 0
  sender : String
  recipient : String
  subject : String
  body : String
  attachments : Dict Bytes := []
  deriving DecidableEq, Inhabited

namespace Mail

def requestSubject : String := "ExecuteNomadicMethod-Request>"
def responseSubject : String := "ExecuteNomadicMethod-Response>"
def separator : Char := '>'
def fieldCount : Nat := 7

/-- The first name of a request that contains the separator. -/
def unmailable? {α : Type} (r : Request α) : Option String :=
  [r.file, r.hash, r.type, r.method].find? (·.contains separator)

def bodyOf (r : Request Datum) : String :=
  String.intercalate (String.singleton separator)
    [r.mode.name, r.file, r.hash, r.type, r.method, (Wire.«variables» Wire.datum).print r.params,
      (Wire.«variables» Wire.datum).print r.nonLocals]

def ofRequest (r : Request Datum) (sender recipient : String) : Except Error Mail :=
  match unmailable? r with
  | some name => .error (.invalid (.unmailable name))
  | none => .ok {
      sender, recipient, subject := requestSubject ++ r.id.toText, body := bodyOf r
      attachments := r.upload.elim [] fun data => [(r.file, data)] }

/-- The id behind the mark that a subject starts with. -/
def idBehind (mark subject : String) : Except Error Uuid :=
  if mark.toList.isPrefixOf subject.toList then
    let text := String.ofList (subject.toList.drop mark.length)
    match Uuid.ofText? text with
    | some id => .ok id
    | none => .error (.malformed (.badCorrelationId text))
  else .error (.malformed (.foreignSubject subject mark))

def isRequest (m : Mail) : Bool := requestSubject.toList.isPrefixOf m.subject.toList
def isResponse (m : Mail) : Bool := responseSubject.toList.isPrefixOf m.subject.toList

def requestId (m : Mail) : Except Error Uuid := idBehind requestSubject m.subject

/-- Reads a request; the module it carries is attached under its file name. -/
def toRequest (m : Mail) : Except Error (Request Datum) := do
  let id ← m.requestId
  match Text.split separator m.body with
  | [mode, file, hash, type, method, params, nonLocals] =>
    match Mode.ofName? mode with
    | none => throw (.malformed (.unknownMode mode))
    | some mode => do
      let params ← (Wire.«variables» Wire.datum).scan params
      let nonLocals ← (Wire.«variables» Wire.datum).scan nonLocals
      return { id, mode, file, hash, type, method, params, nonLocals,
               upload := m.attachments.find? file }
  | fields => throw (.malformed (.requestFields fields.length fieldCount))

def ofAnswer (id : Uuid) (a : Answer Datum) (sender recipient : String) : Mail :=
  { sender, recipient, subject := responseSubject ++ id.toText,
    body := (Wire.answer Wire.datum).print a }

def toAnswer (m : Mail) : Except Error (Uuid × Answer Datum) := do
  let id ← idBehind responseSubject m.subject
  return (id, ← (Wire.answer Wire.datum).scan m.body)

end Mail

/-- Messages in the order in which they were sent, with ascending ids. -/
structure Mailbox where
  lastId : Nat := 0
  messages : List Mail := []
  deriving Inhabited

namespace Mailbox

/-- Gives the message the next id. -/
def send (b : Mailbox) (m : Mail) : Nat × Mailbox :=
  (b.lastId + 1, ⟨b.lastId + 1, b.messages ++ [{ m with id := b.lastId + 1 }]⟩)

def addressedTo (b : Mailbox) (recipient : String) : List Mail :=
  b.messages.filter (·.recipient = recipient)

def message? (b : Mailbox) (id : Nat) : Option Mail := b.messages.find? (·.id = id)

def delete (b : Mailbox) (id : Nat) : Except Error Mailbox :=
  if (b.message? id).isSome then .ok { b with messages := b.messages.filter (·.id ≠ id) }
  else .error (.transport "mailbox" s!"no message with id {id}")

end Mailbox
end MobileCode
