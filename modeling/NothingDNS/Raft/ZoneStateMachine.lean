import NothingDNS.Raft.Types
/-!
# The zone ledger (`internal/cluster/raft/zonesm.go`, `applyEntryWithRetry` of `integration.go:438-460`)

An operation returns the ledger it leaves and its error.

An update without data deletes and then fails (`update_deletes`).
-/

namespace NothingDNS.Raft

/-- The values of `ZoneCommand.Type` that `applyCommand` knows; any other text is `other`. -/
inductive CommandType where
  | addRecord
  | delRecord
  | updateRecord
  | createZone
  | deleteZone
  | other (text : String)
deriving DecidableEq

structure ZoneCommand where
  type : CommandType
  zone : String
  name : String := ""
  rrtype : UInt16 := 0
  ttl : UInt32 := 0
  rdata : List String := []
deriving DecidableEq

structure RecordEntry where
  name : String
  rrtype : UInt16
  ttl : UInt32
  rdata : String
deriving DecidableEq

/-- A key that is missing from `Records` reads as the empty slice. -/
structure ZoneData where
  zone : String
  records : String → List RecordEntry
  modified : Bool := false

structure ZoneStateMachine where
  zones : String → Option ZoneData

namespace ZoneStateMachine

def recordKey (name : String) (rrtype : UInt16) : String := name ++ ":" ++ toString rrtype

def store (z : ZoneStateMachine) (cmd : ZoneCommand) (zone : ZoneData) (rs : List RecordEntry) : ZoneStateMachine :=
  let records := Function.update zone.records (recordKey cmd.name cmd.rrtype) rs
  ⟨Function.update z.zones cmd.zone (some { zone with records, modified := true })⟩

/-- From `zonesm.go:102-130`. -/
def addRecord (z : ZoneStateMachine) (cmd : ZoneCommand) : ZoneStateMachine × Option String :=
  match cmd.rdata with
  | [] => (z, some "add_record requires RData")
  | rdata :: _ =>
    let zone := (z.zones cmd.zone).getD ⟨cmd.zone, fun _ => [], false⟩
    let old := zone.records (recordKey cmd.name cmd.rrtype)
    (z.store cmd zone (old ++ [⟨cmd.name, cmd.rrtype, cmd.ttl, rdata⟩]), none)

/-- From `zonesm.go:132-147`. -/
def delRecord (z : ZoneStateMachine) (cmd : ZoneCommand) : ZoneStateMachine × Option String :=
  match z.zones cmd.zone with
  | none => (z, none)
  | some zone => (z.store cmd zone [], none)

def updateRecord (z : ZoneStateMachine) (cmd : ZoneCommand) : ZoneStateMachine × Option String :=
  match z.delRecord cmd with
  | (z, some err) => (z, some err)
  | (z, none) => z.addRecord cmd

def deleteZone (z : ZoneStateMachine) (cmd : ZoneCommand) : ZoneStateMachine × Option String :=
  (⟨Function.update z.zones cmd.zone none⟩, none)

/-- From `zonesm.go:80-100`. -/
def applyCommand (z : ZoneStateMachine) (cmd : ZoneCommand) : ZoneStateMachine × Option String :=
  match cmd.type with
  | .addRecord => z.addRecord cmd
  | .delRecord => z.delRecord cmd
  | .updateRecord => z.updateRecord cmd
  | .createZone => (z, none)
  | .deleteZone => z.deleteZone cmd
  | .other text => (z, some ("unknown command type: " ++ text))

variable (unmarshal : Bytes → Except String ZoneCommand)

/-- From `zonesm.go:62-77`. -/
def apply (z : ZoneStateMachine) (e : Entry) : ZoneStateMachine × Option String :=
  if e.type = entryNoOp then (z, none)
  else if e.command = [] then (z, none)
  else match unmarshal e.command with
    | .error err => (z, some ("unmarshal command: " ++ err))
    | .ok cmd => z.applyCommand cmd

/-- `retries` is how often a failed entry is tried again before `stopCh` closes. -/
def applyEntryWithRetry (z : ZoneStateMachine) (e : Entry) : Nat → ZoneStateMachine
  | 0 => (z.apply unmarshal e).1
  | retries + 1 => match z.apply unmarshal e with
    | (z, none) => z
    | (z, some _) => z.applyEntryWithRetry e retries

def applyAll (z : ZoneStateMachine) (es : List (Entry × Nat)) : ZoneStateMachine :=
  es.foldl (fun z p => z.applyEntryWithRetry unmarshal p.1 p.2) z

/-- `updateRecord` deletes and its `addRecord` then fails (`zonesm.go:149-155`). -/
def halfDone (cmd : ZoneCommand) : Bool := cmd.type = .updateRecord ∧ cmd.rdata = []

variable {unmarshal} {z : ZoneStateMachine} {cmd : ZoneCommand} {e : Entry}

theorem delRecord_ok (z : ZoneStateMachine) (cmd : ZoneCommand) : (z.delRecord cmd).2 = none := by
  unfold delRecord
  split <;> rfl

theorem updateRecord_eq : z.updateRecord cmd = (z.delRecord cmd).1.addRecord cmd := by
  unfold updateRecord
  have hok := delRecord_ok z cmd
  split <;> simp_all

theorem applyCommand_error (a b : ZoneStateMachine) : (a.applyCommand cmd).2 = (b.applyCommand cmd).2 := by
  have had (a b : ZoneStateMachine) : (a.addRecord cmd).2 = (b.addRecord cmd).2 := by
    unfold addRecord
    split <;> rfl
  unfold applyCommand
  split
  · exact had a b
  · rw [delRecord_ok, delRecord_ok]
  · rw [updateRecord_eq, updateRecord_eq]
    exact had _ _
  all_goals rfl

theorem applyCommand_failed (h : (z.applyCommand cmd).2 ≠ none) :
    (z.applyCommand cmd).1 = if halfDone cmd then (z.delRecord cmd).1 else z := by
  have had {z : ZoneStateMachine} (h : (z.addRecord cmd).2 ≠ none) : cmd.rdata = [] ∧ (z.addRecord cmd).1 = z := by
    unfold addRecord at h ⊢
    split at h
    · exact ⟨‹_›, rfl⟩
    · exact absurd rfl h
  unfold applyCommand at h ⊢
  cases ht : cmd.type <;> simp only [ht] at h
  case addRecord => simp [halfDone, ht, (had h).2]
  case delRecord => exact absurd (delRecord_ok z cmd) h
  case updateRecord =>
    rw [updateRecord_eq] at h ⊢
    simp [halfDone, ht, had h]
  case deleteZone => exact absurd rfl h
  all_goals simp [halfDone, ht]

/-- An entry does nothing, is refused before the ledger is looked at, or is a command. -/
theorem apply_cases (unmarshal : Bytes → Except String ZoneCommand) (e : Entry) :
    (∃ err, ∀ z : ZoneStateMachine, z.apply unmarshal e = (z, err)) ∨
      ∃ cmd, unmarshal e.command = .ok cmd ∧ ∀ z : ZoneStateMachine, z.apply unmarshal e = z.applyCommand cmd := by
  unfold apply
  split
  · exact .inl ⟨none, fun _ => rfl⟩
  split
  · exact .inl ⟨none, fun _ => rfl⟩
  split
  · exact .inl ⟨_, fun _ => rfl⟩
  · exact .inr ⟨_, ‹_›, fun _ => rfl⟩

/-- A second attempt finds the ledger as the failed one left it: a deletion done twice is done once. -/
theorem apply_again (h : (z.apply unmarshal e).2 ≠ none) :
    ((z.apply unmarshal e).1.apply unmarshal e).1 = (z.apply unmarshal e).1 := by
  obtain ⟨err, he⟩ | ⟨cmd, -, he⟩ := apply_cases unmarshal e
  · rw [he, he]
  rw [he] at h
  rw [he, he, applyCommand_failed (applyCommand_error z _ ▸ h), applyCommand_failed h]
  split
  · cases hz : z.zones cmd.zone <;> simp [delRecord, hz, store]
  · rfl

theorem applyEntryWithRetry_eq : ∀ {n : Nat} {z : ZoneStateMachine},
    z.applyEntryWithRetry unmarshal e n = (z.apply unmarshal e).1
  | 0, _ => rfl
  | n + 1, z => by
    unfold applyEntryWithRetry
    split <;> rename_i h
    · rw [h]
    · have haa := apply_again (z := z) (e := e) (by rw [h]; simp)
      rw [h] at haa ⊢
      rw [applyEntryWithRetry_eq, haa]

theorem applyAll_eq {es : List (Entry × Nat)} :
    z.applyAll unmarshal es = (es.map Prod.fst).foldl (fun z e => (z.apply unmarshal e).1) z := by
  simp only [applyAll, applyEntryWithRetry_eq, List.foldl_map]

/-- Deleting the records of `cmd` would change nothing: the ledger does not have the zone, or the zone has no record
under the key and is marked as modified. -/
def NothingToDelete (z : ZoneStateMachine) (cmd : ZoneCommand) : Prop :=
  ∀ zone ∈ z.zones cmd.zone, zone.records (recordKey cmd.name cmd.rrtype) = [] ∧ zone.modified = true

theorem delRecord_eq_self : (z.delRecord cmd).1 = z ↔ z.NothingToDelete cmd := by
  unfold delRecord NothingToDelete
  cases hz : z.zones cmd.zone with
  | none => simp
  | some zone =>
    constructor
    · intro h zone' hm
      cases hm
      -- the zone that is stored is the one that was there
      have hst : (z.store cmd zone []).zones cmd.zone = some zone := by rw [show z.store cmd zone [] = z from h, hz]
      simp only [store, Function.update_self, Option.some.injEq] at hst
      exact ⟨by rw [← hst]; exact Function.update_self .., by rw [← hst]⟩
    · intro h
      obtain ⟨hrec, hmod⟩ := h zone rfl
      change z.store cmd zone [] = z
      rw [store, ← hrec, Function.update_eq_self, ← hmod]
      change ZoneStateMachine.mk (Function.update z.zones cmd.zone (some zone)) = z
      rw [← hz, Function.update_eq_self]

theorem applyCommand_atomic_iff :
    ((z.applyCommand cmd).2 ≠ none → (z.applyCommand cmd).1 = z) ↔ (halfDone cmd = true → z.NothingToDelete cmd) := by
  by_cases hd : halfDone cmd = true
  · have hf : (z.applyCommand cmd).2 ≠ none := by
      obtain ⟨ht, hr⟩ := of_decide_eq_true hd
      simp [applyCommand, ht, updateRecord_eq, addRecord, hr]
    rw [applyCommand_failed hf, if_pos hd, delRecord_eq_self]
    exact ⟨fun h _ => h hf, fun h _ => h hd⟩
  · refine iff_of_true (fun h => ?_) fun h => absurd h hd
    rw [applyCommand_failed h, if_neg hd]

/-- **A failed entry leaves the ledger alone** exactly if it is no update without data for which there is something to
delete; and replicas that apply the same entries agree, however often each of them tries those that fail. -/
theorem apply_atomic (unmarshal : Bytes → Except String ZoneCommand) (z : ZoneStateMachine) (e : Entry) :
    (((z.apply unmarshal e).2 ≠ none → (z.apply unmarshal e).1 = z) ↔
      (e.type ≠ entryNoOp → e.command ≠ [] → ∀ cmd, unmarshal e.command = .ok cmd → halfDone cmd = true →
        z.NothingToDelete cmd)) ∧
      ∀ es fs : List (Entry × Nat), es.map Prod.fst = fs.map Prod.fst →
        z.applyAll unmarshal es = z.applyAll unmarshal fs := by
  refine ⟨?_, fun es fs hes => by rw [applyAll_eq, applyAll_eq, hes]⟩
  unfold apply
  split_ifs with hno hem
  · simp [hno]
  · simp [hem]
  · cases hu : unmarshal e.command with
    | error err => simp
    | ok cmd =>
      rw [applyCommand_atomic_iff]
      exact ⟨fun h _ _ cmd' hc => by cases hc; exact h, fun h => h hno hem cmd rfl⟩

def hosts : ZoneStateMachine :=
  (addRecord ⟨fun _ => none⟩ ⟨.addRecord, "example.", "www", 1, 60, ["192.0.2.1"]⟩).1

def entry : Entry := ⟨1, 1, [0], entryNormal, 0⟩

theorem update_deletes :
    let after := hosts.apply (fun _ => .ok ⟨.updateRecord, "example.", "www", 1, 60, []⟩) entry
    after.2 = some "add_record requires RData" ∧
      (hosts.zones "example.").map (·.records (recordKey "www" 1)) = some [⟨"www", 1, 60, "192.0.2.1"⟩] ∧
      (after.1.zones "example.").map (·.records (recordKey "www" 1)) = some [] := by
  simp [hosts, apply, entry, entryNormal, entryNoOp, applyCommand, updateRecord, addRecord, delRecord, store]

end ZoneStateMachine

end NothingDNS.Raft
