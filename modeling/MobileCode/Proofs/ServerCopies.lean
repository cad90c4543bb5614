import MobileCode.Proofs.Digests
import MobileCode.Proofs.Hashes
import MobileCode.Proofs.ModuleFiles
import MobileCode.Proofs.Sandboxes
import MobileCode.Proofs.Undispatched

/-! # Server copies

The server module of a deployment names its client module by the hash of the client's file. It can be read from its
own file, so a server that has this file in a directory finds it for every request of a client that has the client
module, whatever else there is in its directories.
-/
namespace MobileCode

namespace Deployment

theorem relayed_pairedHash (client : Module Datum) (relayed : List (Target Datum)) :
    (relayed.foldl Module.markRelayEntry client).pairedHash = client.pairedHash := by
  induction relayed generalizing client with
  | nil => rfl
  | cons t rest ih => exact ih (client.markRelayEntry t)

/-- The file of the server module answers to the hash of the client's file. -/
theorem server_answers {boundary : Boundary} {digest : DigestAlgorithm} {m : Module Datum}
    {dependencies : List (Module Datum)} {dep : Deployment}
    (hmake : make? boundary digest m dependencies = .ok (some dep)) (hserver : dep.server.Valid)
    (hsize : dep.server.toFile.length < UInt64.size) :
    Server.answersTo digest (digest.digest dep.client.toFile) dep.server.toFile = true := by
  have hpaired : dep.server.canonical.pairedHash = some (digest.digest dep.client.toFile) := by
    show dep.server.pairedHash = _
    rw [(make?_grown hmake).2]
    exact relayed_pairedHash _ _
  unfold Server.answersTo
  rw [Module.ofFile_toFile hserver hsize, Bool.or_eq_true]
  exact .inr (decide_eq_true hpaired)

end Deployment

/-- The hash that a module is paired with adds its digits and their number to the file. -/
theorem Module.length_toFile (m : Module Datum) (algorithm : DigestAlgorithm) (data : Bytes)
    (h : m.pairedHash = some (algorithm.digest data)) :
    m.toFile.length = { m with pairedHash := none }.toFile.length + 8 + algorithm.hexLength := by
  have htext (s : String) : (Bytes.ofText s).length = s.utf8ByteSize := rfl
  simp only [toFile, Wire.module, Wire.Codec.map, Wire.Codec.pair, List.length_append, Wire.option, h, Wire.text,
    Wire.Codec.check, Wire.bytes, Wire.length_encode_nat, List.length_cons, List.length_nil, htext,
    DigestAlgorithm.utf8ByteSize_digest]
  omega

/-- A module of a new name is found by that name, with its bytes. -/
theorem Domain.register_new {d e : Domain} {m : Module Datum} {bytes : Bytes} {path : Option String} {l : LoadedModule}
    (hnew : d.module? m.name = none) (h : d.register m bytes path = .ok (l, e)) :
    e.module? m.name = some l ∧ l.bytes = bytes := by
  rcases register_cases h with ⟨hknown, _⟩ | ⟨_, rfl, _, rfl⟩
  · cases hnew.symm.trans hknown
  · have hname : (d.loading m bytes path).name = m.name := congrArg Module.name (m.instantiate_shape d.heap)
    rw [module?_enter, if_pos hname.symm]
    exact ⟨rfl, rfl⟩

/-- Loaded from memory or from its file, a valid module has the bytes of its file. -/
theorem Domain.loaded_bytes {d e : Domain} {m : Module Datum} {path : Option String} {l : LoadedModule} (hm : m.Valid)
    (hsize : m.toFile.length < UInt64.size) (hnew : d.module? m.name = none)
    (h : d.load m = .ok (l, e) ∨ d.loadFile m.toFile path = .ok (l, e)) :
    e.module? m.name = some l ∧ l.bytes = m.toFile := by
  rcases h with h | h
  · unfold load at h
    rw [Module.validate_eq_ok.mpr hm] at h
    exact register_new hnew h
  · unfold loadFile at h
    rw [Module.ofFile_toFile hm hsize] at h
    exact register_new (m := m.canonical) hnew h

namespace Client
variable {ν : Type}

/-- In the life of one domain, each request of a new client for a module that was loaded into it has the hash of that
module's file. -/
theorem Uses.hash_eq {c : Client ν} {x y : Reach (Recorded ν)} {turns : List (Turn ν)} (huses : c.Uses x turns y)
    (hnew : x.hashes = []) (henv : ∀ z ∈ turns, c.Alone z.env) {d e : Domain} (hindexed : d.Indexed)
    (hstages : ∀ z ∈ turns, d.Gains z.before.domain ∧ z.after.domain.Gains e) {name : String} {l : LoadedModule}
    (hl : d.module? name = some l) : ∀ z ∈ turns, ∃ sent,
      z.after.outside.network.sent = sent ++ z.before.outside.network.sent ∧
        ∀ q ∈ sent, q.file = name → q.hash = c.settings.digest.digest l.bytes := by
  intro z hz
  let versions (name : String) : Bytes := ((e.module? name).map (·.bytes)).getD []
  have hversions : ∀ z ∈ turns, z.after.domain.HasVersions versions := by
    intro z hz name k hk
    have hlast : e.module? name = some k := (hstages z hz).2.modules name k hk
    simp only [versions, hlast, Option.map_some, Option.getD_some]
  have hbefore : ∀ z ∈ turns, z.before.domain.Indexed := fun z hz => (hstages z hz).1.indexed hindexed
  have hknown : ∀ name hash, x.hashes.find? name = some hash → hash = c.settings.digest.digest (versions name) := by
    intro name hash hfound
    rw [hnew] at hfound
    cases hfound
  obtain ⟨_, hsends⟩ := huses.ready hknown henv hbefore hversions z hz
  obtain ⟨sent, hsent, hnames⟩ := huses.sent_named hnew henv hbefore hversions z hz
  refine ⟨sent, hsent, fun q hq hfile => ?_⟩
  obtain ⟨k, hk⟩ := hnames q hq
  have hkept : z.after.domain.module? name = some l := hsends.gains.modules _ _ ((hstages z hz).1.modules _ _ hl)
  have hsame : some k = some l := by
    rw [← hkept, ← hfile]
    exact hk.module.symm
  rw [hk.hash, Option.some.inj hsame]

end Client

/-- A server has the server module of a deployment in one of its probe directories. Then it finds a file that answers to
the hash for each request that a new client makes for the client module, once this is loaded, and does not ask for the
module. -/
theorem Deployment.served_from_copy {boundary : Boundary} {digest : DigestAlgorithm} {m : Module Datum}
    {dependencies : List (Module Datum)} {dep : Deployment}
    (hmake : make? boundary digest m dependencies = .ok (some dep)) (hclient : dep.client.Valid)
    (hserver : dep.server.Valid) (hsizes : dep.client.toFile.length < UInt64.size ∧ dep.server.toFile.length < UInt64.size)
    {ν : Type} {c : Client ν} (hdigest : c.settings.digest = digest) {d₀ d e : Domain} {l : LoadedModule}
    {path : Option String} (hunloaded : d₀.module? m.name = none)
    (hload : d₀.load dep.client = .ok (l, d) ∨ d₀.loadFile dep.client.toFile path = .ok (l, d)) (hindexed : d.Indexed)
    {x y : Reach (Recorded ν)} {turns : List (Client.Turn ν)} (huses : c.Uses x turns y) (hnew : x.hashes = [])
    (henv : ∀ z ∈ turns, c.Alone z.env)
    (hstages : ∀ z ∈ turns, d.Gains z.before.domain ∧ z.after.domain.Gains e)
    {s : Server} (halgorithm : s.domain.digest = digest) {directory : String} (hmem : directory ∈ s.outside.probePaths)
    (hfile : s.outside.disk.read? (joinPath directory m.name) = some dep.server.toFile) :
    ∀ z ∈ turns, ∃ sent, z.after.outside.network.sent = sent ++ z.before.outside.network.sent ∧
      ∀ q ∈ sent, q.file = m.name → ∀ r : Request Datum, r.file = q.file → r.hash = q.hash →
        (∃ found bytes t, Server.probe r s = some (.ok (some found), t) ∧ s.outside.disk.read? found = some bytes ∧
          (digest.digest bytes = r.hash ∨ ∃ n, Module.ofFile bytes = .ok n ∧ n.pairedHash = some r.hash)) ∧
        ∀ budget thread answer t, Server.execute budget thread r s = some (.ok answer, t) → answer ≠ .moduleUnknown := by
  intro z hz
  have hname : dep.client.name = m.name := owned_name hmake (.inl rfl)
  obtain ⟨hl, hbytes⟩ := Domain.loaded_bytes hclient hsizes.1 (hname.symm ▸ hunloaded) hload
  obtain ⟨sent, hsent, hhashes⟩ := huses.hash_eq hnew henv hindexed hstages (hname ▸ hl) z hz
  refine ⟨sent, hsent, fun q hq hqfile r hrfile hrhash => ?_⟩
  have hhash : r.hash = digest.digest dep.client.toFile := by
    rw [hrhash, hhashes q hq hqfile, hdigest, hbytes]
  have hstocks : s.Stocks r := by
    refine ⟨directory, List.mem_append_left _ hmem, dep.server.toFile, ?_, ?_⟩
    · rw [hrfile, hqfile]
      exact hfile
    · rw [halgorithm, hhash]
      exact server_answers hmake hserver hsizes.2
  constructor
  · obtain ⟨found, t, hprobe⟩ := Server.probe_finds hstocks
    obtain ⟨bytes, hread, hanswers⟩ := (Server.probe_ensures _ t hprobe).2 found rfl
    refine ⟨found, bytes, t, hprobe, hread, ?_⟩
    rw [halgorithm] at hanswers
    exact Server.answersTo_eq_true.mp hanswers
  · exact fun budget thread answer t h => Server.execute_ne_unknown (Server.find_ne_none hstocks) answer t h

namespace gauge

/-- A call of the method, from a client whose server never has the module. -/
def setting : Client.Act := .call { method := ⟨⟨none, "Ops.Gauge"⟩, "Set", [TypeName.int32]⟩, args := [.int32 7] }

/-- A server with a file in a probe directory. -/
def stocked (file : Bytes) : Server where
  domain := { hostName := "server" }
  outside := { probePaths := ["", "old"], sandbox := "sandbox", disk := { files := [(["Gauge"], file)] } }

theorem stocked_read (file : Bytes) :
    (stocked file).outside.disk.read? (joinPath "" gauge.name) = some file := by
  have hpath : joinPath "" gauge.name = "Gauge" := by decide +kernel
  have hname : "Gauge".splitOn "/" = ["Gauge"] := by
    rw [String.splitOn, if_neg (by decide)]
    iterate 5 rw [meter.splitOnAux_skip (by decide +kernel) (by decide +kernel)]
    rw [String.splitOnAux]
    decide +kernel
  have husable : FileTree.isUsable "Gauge" = true := by decide +kernel
  have hlocated : (stocked file).outside.disk.locate? "Gauge" = some ([], "Gauge") := by
    unfold FileTree.locate?
    rw [hname]
    show (if (_ || !FileTree.isUsable "Gauge") = true then none else _) = _
    rw [husable]
    have hstart : (stocked file).outside.disk.start "Gauge" = [] := by simp [FileTree.start, stocked]
    simp [hstart]
  rw [hpath, FileTree.read?, hlocated]
  rfl

end gauge

open gauge meter in
/-- Both the request and the one that takes the module along: with the copy the server would not have asked for it. -/
theorem gauge_served : ∃ dep l d z first second, Deployment.make? {} .sha1 gauge [] = .ok (some dep) ∧
    Domain.loadFile { hostName := "client" } dep.client.toFile none = .ok (l, d) ∧
    caller.Uses { network := ⟨(), []⟩ } [z] z.after.outside ∧ z.after.outside.network.sent = [second, first] ∧
    ∀ q ∈ [second, first], ∀ r : Request Datum, r.file = q.file → r.hash = q.hash →
      ∀ budget thread answer t, Server.execute budget thread r (stocked dep.server.toFile) = some (.ok answer, t) →
        answer ≠ .moduleUnknown := by
  obtain ⟨dep, l, d, outcome, after, first, second, hmake, hregister, hperform, hsent, hfile, hfile', hclient, hserver,
      hpaired, hsizes⟩ : ∃ dep l d outcome after first second, Deployment.make? {} .sha1 gauge [] = .ok (some dep) ∧
        Domain.register { hostName := "client" } dep.client.canonical dep.client.toFile none = .ok (l, d) ∧
        setting.perform caller alone 10 ⟨d, { network := ⟨(), []⟩ }⟩ = some (outcome, after) ∧
        after.outside.network.sent = [second, first] ∧ first.file = gauge.name ∧ second.file = gauge.name ∧
        dep.client.validate = .ok () ∧ dep.server.validate = .ok () ∧
        dep.server.pairedHash = some (DigestAlgorithm.sha1.digest dep.client.toFile) ∧
        dep.client.toFile.length < UInt64.size ∧
        { dep.server with pairedHash := none }.toFile.length + 48 < UInt64.size :=
    ⟨_, _, _, _, _, _, _, rfl, rfl, rfl, rfl, rfl, rfl, rfl, rfl, rfl, by decide +kernel, by decide +kernel⟩
  have hvalid := Module.validate_eq_ok.mp hclient
  have hload : Domain.loadFile { hostName := "client" } dep.client.toFile none = .ok (l, d) := by
    unfold Domain.loadFile
    rw [Module.ofFile_toFile hvalid hsizes.1]
    exact hregister
  have hunloaded : Domain.module? { hostName := "client" } gauge.name = none := rfl
  have hindexed : d.Indexed := (Domain.loadFile_gains hload).indexed (Domain.indexed_of_empty rfl rfl)
  have hlength := dep.server.length_toFile .sha1 _ hpaired
  have hsize : dep.server.toFile.length < UInt64.size := hlength ▸ hsizes.2
  let z : Client.Turn Unit := ⟨alone, 10, setting, ⟨d, { network := ⟨(), []⟩ }⟩, outcome, after⟩
  have huses : caller.Uses { network := ⟨(), []⟩ } [z] after.outside :=
    Client.Uses.cons (z := z) hperform (.nil after.outside)
  obtain ⟨sent, hall, hserved⟩ := Deployment.served_from_copy hmake hvalid (Module.validate_eq_ok.mp hserver)
    ⟨hsizes.1, hsize⟩ rfl hunloaded (.inr hload) hindexed huses rfl (List.forall_mem_singleton.mpr caller_alone)
    (List.forall_mem_singleton.mpr ⟨.refl d, .refl after.domain⟩) (s := stocked dep.server.toFile) rfl
    List.mem_cons_self (stocked_read _) z List.mem_cons_self
  have hsame : sent = [second, first] := by
    rw [← hsent, hall]
    simp [z]
  have hfiles : ∀ q ∈ [second, first], q.file = gauge.name := by
    simp only [List.forall_mem_cons]
    exact ⟨hfile', hfile, by simp⟩
  refine ⟨dep, l, d, z, first, second, hmake, hload, huses, hsent, fun q hq r hrfile hrhash => ?_⟩
  exact (hserved q (hsame ▸ hq) (hfiles q hq) r hrfile hrhash).2

end MobileCode
