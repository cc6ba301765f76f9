import Mathlib.Data.List.Sort
import NothingDNS.Lib.BigEndian
import NothingDNS.Zone.Soa
/-!
# The files of a zone's journal (`internal/transfer/kvjournal.go`)

`Transfer.Ixfr` has the store as a list of entries. Here it is a directory whose files are named by serials, and a
file that cannot be read is removed. `marshal` and `unmarshal` are `encoding/json`, `mac` is the HMAC under the key of
the store.

Files are ordered by their serials as numbers. The newest entries are kept while the serials grow
(`loadEntries_saved`); when they wrap around, the newest is trimmed first (`loadEntries_wrapped`).
-/

namespace NothingDNS.Transfer

open List BigEndian

/-- The files of a journal by the serials in their names. -/
abbrev Dir := List (UInt32 × List UInt8)

structure Codec (Entry : Type) where
  serial : Entry → UInt32
  marshal : Entry → List UInt8
  unmarshal : List UInt8 → Option Entry
  mac : Option (List UInt8 → List UInt8)
  unmarshal_marshal : ∀ e, unmarshal (marshal e) = some e
  length_mac : ∀ m ∈ mac, ∀ payload, (m payload).length = 32

def maxJournalPayload : Nat := 16 * 2 ^ 20

namespace Codec

variable {Entry : Type} (c : Codec Entry) (mac : List UInt8 → List UInt8)

def writeEntry (e : Entry) : List UInt8 :=
  let payload := c.marshal e
  0xDB :: (encode 2 1 ++ (encode 4 payload.length ++ (payload ++ mac payload)))

/-- From `kvjournal.go:311-350`. -/
def readEntryHMAC (file : List UInt8) : Option Entry :=
  let payloadLen := decode ((file.drop 3).take 4)
  let record := file.drop 7
  let payload := record.take payloadLen
  if file.length < 7 ∨ file.head? ≠ some 0xDB ∨ decode ((file.drop 1).take 2) ≠ 1 then none
  else if maxJournalPayload < payloadLen ∨ record.length < payloadLen + 32 then none
  else if (record.drop payloadLen).take 32 ≠ mac payload then none
  else c.unmarshal payload

def write (e : Entry) : UInt32 × List UInt8 :=
  (c.serial e, c.mac.elim (c.marshal e) fun mac => c.writeEntry mac e)

def read (file : UInt32 × List UInt8) : Option Entry :=
  c.mac.elim (c.unmarshal file.2) fun mac => c.readEntryHMAC mac file.2

/-- What the files hold. Those that cannot be read do not stay. -/
def loadEntriesFromDir (dir : Dir) : List Entry × Dir :=
  (dir.filterMap c.read, dir.filter fun file => (c.read file).isSome)

/-- From `kvjournal.go:235-263`. -/
def trimJournalToLocked (keepCount : Nat) (dir : Dir) : Dir :=
  let (entries, dir) := c.loadEntriesFromDir dir
  if entries.length ≤ keepCount then dir
  else
    let toRemove := (entries.insertionSort fun a b => c.serial b ≤ c.serial a).drop keepCount
    dir.filter fun file => file.1 ∉ toRemove.map c.serial

def saveEntry (maxJournalSize : Nat) (dir : Dir) (e : Entry) : Dir :=
  c.trimJournalToLocked maxJournalSize (dir.filter (fun file => file.1 ≠ c.serial e) ++ [c.write e])

def loadEntries (dir : Dir) : List Entry :=
  (c.loadEntriesFromDir dir).1.insertionSort fun a b => c.serial a ≤ c.serial b

def Readable (e : Entry) : Prop := c.mac = none ∨ (c.marshal e).length ≤ maxJournalPayload

variable {c} {mac}

theorem readEntryHMAC_writeEntry {e : Entry} (hmac : mac ∈ c.mac) (h : (c.marshal e).length ≤ maxJournalPayload) :
    c.readEntryHMAC mac (c.writeEntry mac e) = some e := by
  have hlen : decode (encode 4 (c.marshal e).length) = (c.marshal e).length :=
    decode_encode_of_lt (h.trans_lt (by decide))
  have htw : encode 2 1 = [0, 1] := by decide
  have hmac := c.length_mac mac hmac (c.marshal e)
  simp [readEntryHMAC, writeEntry, htw, hlen, hmac, h.not_gt, c.unmarshal_marshal, drop_append, take_append]
  rfl

theorem read_write {e : Entry} (h : c.Readable e) : c.read (c.write e) = some e := by
  unfold read write
  cases hmac : c.mac with
  | none => exact c.unmarshal_marshal e
  | some mac => exact readEntryHMAC_writeEntry hmac (h.resolve_left (by simp [hmac]))

theorem filter_write {old new : List Entry} (hserial : (old ++ new).Pairwise (c.serial · < c.serial ·)) :
    ((old ++ new).map c.write).filter (fun file => file.1 ∉ old.reverse.map c.serial) = new.map c.write := by
  obtain ⟨-, -, hlt⟩ := pairwise_append.1 hserial
  rw [map_append, filter_append, filter_eq_nil_iff.2, filter_eq_self.2, nil_append]
  · simpa [write] using fun e he a ha heq => UInt32.ne_of_lt (hlt a ha e he) heq
  · simpa [write] using fun e he => ⟨e, he, rfl⟩

variable {es : List Entry} (h : ∀ e ∈ es, c.Readable e) (hserial : es.Pairwise (c.serial · < c.serial ·))

include h in
theorem loadEntriesFromDir_write : c.loadEntriesFromDir (es.map c.write) = (es, es.map c.write) := by
  unfold loadEntriesFromDir
  have hrd : es.filterMap (c.read ∘ c.write) = es.filterMap some := filterMap_congr fun e he => read_write (h e he)
  rw [filterMap_map, hrd, filterMap_some, filter_eq_self.2]
  simpa using fun e he => by simp [read_write (h e he)]

include hserial

theorem insertionSort_reverse : es.insertionSort (fun a b => c.serial b ≤ c.serial a) = es.reverse := by
  induction es with
  | nil => rfl
  | cons e es ih =>
    obtain ⟨he, hes⟩ := pairwise_cons.1 hserial
    have hls : ∀ b ∈ es.reverse, decide ¬c.serial b ≤ c.serial e := by simpa using he
    rw [insertionSort_cons, ih hes, orderedInsert_eq_take_drop, takeWhile_eq_self_iff.2 hls,
      dropWhile_eq_nil_iff.2 hls, reverse_cons]

include h

theorem trimJournalToLocked_write {keep : Nat} :
    c.trimJournalToLocked keep (es.map c.write) = (es.drop (es.length - keep)).map c.write := by
  simp only [trimJournalToLocked, loadEntriesFromDir_write h]
  split
  next hle => rw [Nat.sub_eq_zero_of_le hle, drop_zero]
  next =>
    have hsp := take_append_drop (es.length - keep) es
    have hkp := filter_write (hsp.symm ▸ hserial)
    rw [hsp] at hkp
    rw [insertionSort_reverse hserial, drop_reverse, hkp]

theorem saved_eq {n : Nat} : es.foldl (c.saveEntry n) [] = (es.drop (es.length - n)).map c.write := by
  induction es using List.reverseRecOn with
  | nil => simp
  | append_singleton es e ih =>
    obtain ⟨hes, -, hls⟩ := pairwise_append.1 hserial
    have hsb := drop_sublist (es.length - n) es
    have hall := hsb.append (.refl [e])
    rw [foldl_append, ih (fun e he => h e (by simp [he])) hes, foldl_cons, foldl_nil, saveEntry, filter_eq_self.2, ←
      map_singleton, ← map_append, trimJournalToLocked_write (fun e he => h e (hall.subset he)) (hserial.sublist
      hall), ← drop_append_of_le_length (Nat.sub_le _ _), drop_drop]
    · congr 2
      simp
      omega
    · simpa only [forall_mem_map, write, decide_eq_true_eq] using fun a ha =>
        UInt32.ne_of_lt (hls a (hsb.subset ha) e (by simp))

/-- **The journal keeps the newest entries in order** if their serials grow and they can be read. -/
theorem loadEntries_saved {n : Nat} : c.loadEntries (es.foldl (c.saveEntry n) []) = es.drop (es.length - n) := by
  have hsb := drop_sublist (es.length - n) es
  rw [saved_eq h hserial, loadEntries, loadEntriesFromDir_write fun e he => h e (hsb.subset he)]
  exact ((hserial.sublist hsb).imp UInt32.le_of_lt).insertionSort_eq

end Codec

def serialCodec : Codec UInt32 where
  serial := id
  marshal s := encode 4 s.toNat
  unmarshal bs := some (.ofNat (decode bs))
  mac := none
  unmarshal_marshal s := by rw [decode_encode_of_lt s.toNat_lt, UInt32.ofNat_toNat]
  length_mac := by simp

theorem loadEntries_saved_three : serialCodec.loadEntries ([1, 5, 9].foldl (serialCodec.saveEntry 2) []) = [5, 9] :=
  Codec.loadEntries_saved (by simp [Codec.Readable, serialCodec]) (by decide)

theorem loadEntries_wrapped : serialIsNewer 0 4294967295 = true ∧
    serialCodec.loadEntries ([4294967295, 0].foldl (serialCodec.saveEntry 2) []) = [0, 4294967295] ∧
    serialCodec.loadEntries ([4294967295, 0].foldl (serialCodec.saveEntry 1) []) = [4294967295] := by
  decide

end NothingDNS.Transfer
