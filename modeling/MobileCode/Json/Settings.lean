import MobileCode.Json
import MobileCode.Settings

/-! # Settings in JSON

A setting that is left out has its default. Durations are written in whole milliseconds.
-/
namespace MobileCode

namespace Json

/-- The parts of a record in which parts may be missing: by name, or by position up to a first
missing one. -/
def settings? (names : List String) : Json → Option (String → Option Json)
  | array xs => if xs.length ≤ names.length then some fun n => (names.zip xs).lookup n else none
  | j => j.record? names

/-- A part of a record, or its default if it is missing. -/
def orDefault? {α : Type} (default : α) (f : Json → Option α) : Option Json → Option α
  | none => some default
  | some x => f x

end Json

namespace DigestAlgorithm

def ofJson? (j : Json) : Option DigestAlgorithm :=
  match j.form? with
  | some ("Sha1", none) | some ("Sha1", some .null) => some sha1
  | some ("Md5", none) | some ("Md5", some .null) => some md5
  | _ => none

def toJson : DigestAlgorithm → Json
  | sha1 => .text "Sha1"
  | md5 => .text "Md5"

end DigestAlgorithm

namespace Duration

def ofJson? (j : Json) : Option Duration := (j.asNatBelow? UInt64.size).map ofMillis

def toJson (d : Duration) : Json := .nat (min d.millis (UInt64.size - 1))

end Duration

namespace ClientSettings

def ofJson? (j : Json) : Option ClientSettings := do
  let get ← j.settings? ["enabled", "default_endpoint", "timeout", "poll_interval", "digest",
    "address_type"]
  let d : ClientSettings := {}
  return {
    enabled := ← Json.orDefault? d.enabled Json.asBool? (get "enabled")
    defaultEndpoint := ← Json.nullable? Json.asText? (get "default_endpoint")
    timeout := ← Json.orDefault? d.timeout Duration.ofJson? (get "timeout")
    pollInterval := ← Json.orDefault? d.pollInterval Duration.ofJson? (get "poll_interval")
    digest := ← Json.orDefault? d.digest DigestAlgorithm.ofJson? (get "digest")
    addressType := ← Json.nullable? Json.asText? (get "address_type") }

def toJson (c : ClientSettings) : Json :=
  .object [("enabled", .bool c.enabled), ("default_endpoint", Json.optional .text c.defaultEndpoint),
    ("timeout", c.timeout.toJson), ("poll_interval", c.pollInterval.toJson),
    ("digest", c.digest.toJson), ("address_type", Json.optional .text c.addressType)]

end ClientSettings

namespace ServerSettings

def ofJson? (j : Json) : Option ServerSettings := do
  let get ← j.settings? ["probe_paths", "sandbox_dir", "max_call_depth"]
  let d : ServerSettings := {}
  return {
    probePaths := ← Json.orDefault? d.probePaths (Json.listOf? Json.asText?) (get "probe_paths")
    sandbox := ← Json.orDefault? d.sandbox (fun x => x.asText?.map some) (get "sandbox_dir")
    maxDepth := ← Json.orDefault? d.maxDepth (Json.asNatBelow? UInt64.size) (get "max_call_depth") }

end ServerSettings

def Settings.ofJson? (j : Json) : Option Settings := do
  let get ← j.settings? ["client", "server"]
  return {
    client := ← Json.orDefault? {} ClientSettings.ofJson? (get "client")
    server := ← Json.orDefault? {} ServerSettings.ofJson? (get "server") }

end MobileCode
