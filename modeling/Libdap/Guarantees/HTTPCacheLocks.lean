import Libdap.Guarantees.HTTPCacheTable
import Libdap.Library.Runs

/-!
# The locks of the cache entries

Between two operations an entry is read-locked once for every response that a client
holds of it, and never write-locked. Two exception handlers break this: the one of
`get_cached_response` keeps the read lock, and the one of `update_response` gives back a
read lock where it holds both locks for writing.
-/
namespace Libdap.Guarantees.HTTPCacheLocks
open Libdap.Library.Runs
open Libdap.Source Libdap.Source.HTTPCacheTable Libdap.Source.HTTPCache
open HTTPCacheTable

/-- The responses of the entry at this address that clients hold. -/
def holders (t : Table) (address : Nat) : Nat :=
  t.lockedEntries.countP fun b => decide (b.2 = some address)

structure Right (t : Table) (e : CacheEntry) : Prop where
  readers : e.readers = holders t e.address
  readLock : e.responseLock = decide (0 < e.readers)
  writeLock : e.responseWriteLock = false

def Disciplined (t : Table) : Prop := ∀ e ∈ entries t, Right t e

/-- What the discipline rests on: pointers are to different entries of the table. -/
structure Linked (next : Nat) (t : Table) : Prop where
  addresses : ((entries t).map CacheEntry.address).Nodup
  below : ∀ e ∈ entries t, e.address < next
  bound : ∀ b ∈ t.lockedEntries, ∀ a, b.2 = some a → ∃ e ∈ entries t, e.address = a
  files : (t.lockedEntries.map Prod.fst).Nodup

structure Inv (next : Nat) (t : Table) : Prop where
  shape : Shape t
  linked : Linked next t
  disciplined : Disciplined t

theorem entries_empty (blockSize : Nat) : entries (Table.empty blockSize) = [] := by
  simp [entries, Table.empty]

theorem inv_empty (blockSize : Nat) : Inv 0 (Table.empty blockSize) := by
  refine ⟨⟨List.length_replicate, ?_, ?_, ?_⟩, ⟨?_, ?_, ?_, List.nodup_nil⟩, ?_⟩
  · rw [entries_empty]
    exact List.nodup_nil
  · intro h slot found e member
    rw [List.eq_of_mem_replicate (List.mem_of_getElem? found)] at member
    cases member
  · intro slot member
    rw [List.eq_of_mem_replicate member]
    exact List.not_mem_nil
  · rw [entries_empty]
    exact List.nodup_nil
  · intro e member
    rw [entries_empty] at member
    cases member
  · intro b member
    cases member
  · intro e member
    rw [entries_empty] at member
    cases member

theorem Linked.eq_of_address {next : Nat} {t : Table} (linked : Linked next t)
    {e e' : CacheEntry} (member : e ∈ entries t) (member' : e' ∈ entries t)
    (same : e.address = e'.address) : e = e' :=
  List.inj_on_of_nodup_map linked.addresses member member' same

theorem holders_pos {t : Table} {b : File × Option Nat} {a : Nat} (held : b ∈ t.lockedEntries)
    (entry : b.2 = some a) : 0 < holders t a :=
  List.countP_pos_iff.mpr ⟨b, held, decide_eq_true entry⟩

/-! ## What each kind of change keeps -/

theorem Inv.without {next : Nat} {t : Table} {doomed : CacheEntry → Bool} (inv : Inv next t)
    (idle : ∀ e ∈ entries t, doomed e = true → e.readers = 0) : Inv next (without doomed t) := by
  have kept : ∀ e, e ∈ entries (HTTPCacheTable.without doomed t) ↔
      e ∈ entries t ∧ doomed e = false := by
    intro e
    rw [entries_without, List.mem_filter]
    simp
  refine ⟨inv.shape.without, ⟨?_, ?_, ?_, inv.linked.files⟩, ?_⟩
  · rw [entries_without]
    exact inv.linked.addresses.sublist (List.filter_sublist.map _)
  · exact fun e member => inv.linked.below e ((kept e).mp member).1
  · intro b held a entry
    rcases inv.linked.bound b held a entry with ⟨e, member, here⟩
    refine ⟨e, (kept e).mpr ⟨member, ?_⟩, here⟩
    by_contra gone
    have none_held := idle e member (by simpa using gone)
    have right := (inv.disciplined e member).readers
    have some_held : 0 < holders t a := holders_pos held entry
    rw [here] at right
    omega
  · intro e member
    have right := inv.disciplined e ((kept e).mp member).1
    exact ⟨right.readers, right.readLock, right.writeLock⟩

theorem Inv.dumped {next : Nat} {t : Table} (inv : Inv next t) (newEntries : Int) :
    Inv next { t with newEntries } :=
  ⟨⟨inv.shape.slots, inv.shape.unique, inv.shape.placed, inv.shape.noNull⟩,
    ⟨inv.linked.addresses, inv.linked.below, inv.linked.bound, inv.linked.files⟩,
    fun e member =>
      have right := inv.disciplined e member
      ⟨right.readers, right.readLock, right.writeLock⟩⟩

theorem Inv.later {next : Nat} {t : Table} (inv : Inv next t) : Inv (next + 1) t :=
  ⟨inv.shape, ⟨inv.linked.addresses, fun e member => Nat.lt_succ_of_lt (inv.linked.below e member),
    inv.linked.bound, inv.linked.files⟩, inv.disciplined⟩

/-- An entry nobody holds, at a new address and for a new URL. -/
theorem Inv.withEntry {next : Nat} {t : Table} {e : CacheEntry} (inv : Inv next t)
    (address : e.address = next) (new : ∀ other ∈ entries t, other.url ≠ e.url)
    (readers : e.readers = 0) (free : e.responseLock = false)
    (free' : e.responseWriteLock = false) : Inv (next + 1) (withEntry e t) := by
  have perm := entries_withEntry inv.shape e
  have nobody : holders t next = 0 := by
    refine List.countP_eq_zero.mpr fun b held => ?_
    rw [decide_eq_true_eq]
    intro entry
    rcases inv.linked.bound b held next entry with ⟨other, member, here⟩
    have := inv.linked.below other member
    omega
  refine ⟨inv.shape.withEntry new, ⟨?_, ?_, ?_, inv.linked.files⟩, ?_⟩
  · rw [(perm.map CacheEntry.address).nodup_iff, List.map_cons, List.nodup_cons]
    refine ⟨fun member => ?_, inv.linked.addresses⟩
    rcases List.mem_map.mp member with ⟨other, inside, same⟩
    have := inv.linked.below other inside
    omega
  · intro other member
    rcases List.mem_cons.mp (perm.mem_iff.mp member) with rfl | old
    · omega
    · exact Nat.lt_succ_of_lt (inv.linked.below other old)
  · intro b held a entry
    rcases inv.linked.bound b held a entry with ⟨other, member, here⟩
    exact ⟨other, perm.mem_iff.mpr (List.mem_cons_of_mem _ member), here⟩
  · intro other member
    rcases List.mem_cons.mp (perm.mem_iff.mp member) with rfl | old
    · refine ⟨?_, ?_, free'⟩
      · rw [readers, address]
        exact (congrArg Int.ofNat nobody).symm
      · rw [free, readers]
        rfl
    · have right := inv.disciplined other old
      exact ⟨right.readers, right.readLock, right.writeLock⟩

/-! ## Changing one entry -/

variable {next : Nat} {t : Table}

/-- The entries after the change of one of them. -/
theorem mem_modify_entry {e e' x : CacheEntry}
    (inside : x ∈ entries (t.modify e.address fun _ => e')) :
    x = e' ∨ x ∈ entries t ∧ x.address ≠ e.address := by
  rw [entries_modify] at inside
  rcases List.mem_map.mp inside with ⟨old, there, rfl⟩
  unfold changed
  split
  · exact .inl rfl
  · next other => exact .inr ⟨there, other⟩

/-- One entry changes, and with it the responses that are held of it and of no other. -/
theorem Inv.change {e e' : CacheEntry} {locked : List (File × Option Nat)} (inv : Inv next t)
    (member : e ∈ entries t) (address : e'.address = e.address) (url : e'.url = e.url)
    (bound : ∀ b ∈ locked, ∀ a, b.2 = some a → ∃ x ∈ entries t, x.address = a)
    (files : (locked.map Prod.fst).Nodup)
    (others : ∀ a, a ≠ e.address → locked.countP (fun b => decide (b.2 = some a)) = holders t a)
    (right : Right { t.modify e.address (fun _ => e') with lockedEntries := locked } e') :
    Inv next { t.modify e.address (fun _ => e') with lockedEntries := locked } := by
  have same_address : ∀ x, (changed e.address (fun _ => e') x).address = x.address := by
    intro x
    unfold changed
    split
    · next here => rw [address, here]
    · rfl
  have same_url : ∀ x ∈ entries t, (changed e.address (fun _ => e') x).url = x.url := by
    intro x there
    unfold changed
    split
    · next here => rw [url, inv.linked.eq_of_address there member here]
    · rfl
  have shape := inv.shape.modify same_url
  have list : entries { t.modify e.address (fun _ => e') with lockedEntries := locked } =
      (entries t).map (changed e.address fun _ => e') := entries_modify t
  refine ⟨⟨shape.slots, shape.unique, shape.placed, shape.noNull⟩, ⟨?_, ?_, ?_, files⟩, ?_⟩
  · have addresses : ((entries t).map (changed e.address fun _ => e')).map CacheEntry.address =
        (entries t).map CacheEntry.address := by
      rw [List.map_map]
      exact List.map_congr_left fun x _ => same_address x
    rw [list, addresses]
    exact inv.linked.addresses
  · intro x inside
    rw [list] at inside
    rcases List.mem_map.mp inside with ⟨old, there, rfl⟩
    rw [same_address]
    exact inv.linked.below old there
  · intro b held a entry
    rcases bound b held a entry with ⟨x, there, here⟩
    refine ⟨changed e.address (fun _ => e') x, ?_, ?_⟩
    · rw [list]
      exact List.mem_map_of_mem there
    · rw [same_address, here]
  · intro x inside
    rcases mem_modify_entry inside with rfl | ⟨old, other⟩
    · exact right
    · have before := inv.disciplined x old
      refine ⟨?_, before.readLock, before.writeLock⟩
      rw [before.readers, ← others x.address other]
      rfl

/-! ## Garbage collection -/

/-- However the function ends, if it does, it leaves this behind. -/
def Leaves (P : Table → Prop) (result : Exit × Table) : Prop := result.1 ≠ .stuck → P result.2

theorem leaves_returned {P : Table → Prop} {t : Table} (h : P t) : Leaves P (.returned, t) :=
  fun _ => h

/-- What holds of a table holds without some of its unread entries. -/
def Shrinks (P : Table → Prop) : Prop :=
  ∀ t doomed, P t → (∀ e ∈ entries t, doomed e = true → e.readers = 0) → P (without doomed t)

variable {P : Table → Prop} {config : Config}

theorem clean_unread_eq (t : Table) (doomed : CacheEntry → Bool) :
    t.clean (unread doomed) =
      (.returned, without (fun e => decide (e.readers = 0 ∧ doomed e = true)) t) := by
  refine clean_deletes fun e _ => ?_
  by_cases gone : e.readers = 0 ∧ doomed e = true
  · exact .inr ⟨decide_eq_true gone, e, if_pos gone, gone.1, rfl⟩
  · exact .inl ⟨decide_eq_false gone, if_neg gone⟩

theorem clean_unread (shrinks : Shrinks P) (h : P t) (doomed : CacheEntry → Bool) :
    Leaves P (t.clean (unread doomed)) := by
  rw [clean_unread_eq]
  exact leaves_returned (shrinks t _ h fun e _ gone => (of_decide_eq_true gone).1)

theorem hitsLoop_leaves (shrinks : Shrinks P) (h : P t) (fuel : Nat) (hits : Int) :
    Leaves P (hitsLoop config fuel hits t) := by
  induction fuel generalizing t hits with
  | zero => exact fun ends => absurd rfl ends
  | succ fuel ih =>
    rw [hitsLoop]
    split
    · exact leaves_returned h
    · have cleaned : Leaves P (t.deleteByHits hits) := clean_unread shrinks h _
      split
      · next left same =>
          rw [same] at cleaned
          exact ih (cleaned nofun) (hits + 1)
      · next exit left _ same =>
          rw [same] at cleaned
          exact cleaned

theorem performGarbageCollection_leaves (shrinks : Shrinks P) (h : P t) (now : Int) :
    Leaves P (performGarbageCollection config now t) := by
  have expired : Leaves P (expiredGC config now t) := by
    unfold expiredGC
    split
    · exact leaves_returned h
    · exact clean_unread shrinks h _
  unfold performGarbageCollection
  split
  · next t₁ same =>
      rw [same] at expired
      have big : Leaves P (tooBigGC config t₁) := by
        unfold tooBigGC
        split
        · exact clean_unread shrinks (expired nofun) _
        · exact leaves_returned (expired nofun)
      split
      · next t₂ same₂ =>
          rw [same₂] at big
          unfold hitsGC
          split
          · exact hitsLoop_leaves shrinks (big nofun) _ 0
          · exact leaves_returned (big nofun)
      · next exit left _ same₂ =>
          rw [same₂] at big
          exact big
  · next exit left _ same =>
      rw [same] at expired
      exact expired

/-- The end of `cache_response`, for what the count of new entries does not matter to. -/
theorem dumpIndex_leaves (shrinks : Shrinks P) (dumps : ∀ t n, P t → P { t with newEntries := n })
    (h : P t) (now : Int) (disk : Disk) : Leaves P (dumpIndex config now disk t) := by
  have writes : ∀ {t}, P t → Leaves P (cacheIndexWrite disk t) := by
    intro t h
    unfold cacheIndexWrite
    split
    · exact fun _ => h
    · exact leaves_returned (dumps t 0 h)
  unfold dumpIndex
  split
  · split
    · have collected : Leaves P (performGarbageCollection config now t) :=
        performGarbageCollection_leaves shrinks h now
      split
      · next left same =>
          rw [same] at collected
          exact writes (collected nofun)
      · next exit left _ same =>
          rw [same] at collected
          exact collected
    · exact writes h
  · exact leaves_returned h

theorem inv_shrinks (next : Nat) : Shrinks (Inv next) := fun _ _ inv idle => inv.without idle

/-! ## Headers and times do not touch the locks -/

/-- Whose entry this is and who uses it. -/
def identity (e : CacheEntry) : Nat × Chars × Int × Nat × Int × Bool × Bool :=
  (e.address, e.url, e.hash, e.size, e.readers, e.responseLock, e.responseWriteLock)

theorem field_ite {γ : Type} {field : CacheEntry → γ} {value : γ} {c : Prop} [Decidable c]
    {a b : CacheEntry} (yes : field a = value) (no : field b = value) :
    field (if c then a else b) = value := by
  split
  · exact yes
  · exact no

theorem parseHeader_identity (lib : Parsing) (maxEntrySize : Nat) (e : CacheEntry) (line : Chars) :
    identity (parseHeader lib maxEntrySize e line) = identity e := by
  unfold parseHeader
  split
  · rfl
  · have cacheControl : ∀ {c d f : Prop} [Decidable c] [Decidable d] [Decidable f] (age : Int),
        identity (if c then { e with noCache := true } else if d then { e with mustRevalidate := true }
          else if f then { e with maxAge := age } else e) = identity e :=
      fun _ => field_ite rfl (field_ite rfl (field_ite rfl rfl))
    exact field_ite rfl (field_ite rfl (field_ite rfl (field_ite rfl (field_ite rfl
      (field_ite (field_ite rfl rfl) (field_ite (cacheControl _) rfl))))))

theorem parseHeaders_identity (lib : Parsing) (maxEntrySize : Nat) (e : CacheEntry)
    (headers : List Chars) :
    identity (parseHeaders lib maxEntrySize e headers) = identity e := by
  unfold parseHeaders
  induction headers generalizing e with
  | nil => rfl
  | cons line headers ih =>
    rw [List.foldl_cons, ih]
    exact parseHeader_identity lib maxEntrySize e line

/-- The entry of a response with new headers. -/
def renewed (config : Config) (requestTime : Int) (headers : List Chars) (now : Int)
    (e : CacheEntry) : CacheEntry :=
  calculateTime config.defaultExpiration requestTime now
    (parseHeaders config.lib config.maxEntrySize e headers)

theorem renewed_identity (requestTime : Int) (headers : List Chars) (now : Int) (e : CacheEntry) :
    identity (renewed config requestTime headers now e) = identity e :=
  parseHeaders_identity config.lib config.maxEntrySize e headers

/-! ## Locking and unlocking one entry -/

theorem modify_eq {change change' : CacheEntry → CacheEntry} {a : Nat}
    (same : ∀ e ∈ entries t, e.address = a → change e = change' e) :
    t.modify a change = t.modify a change' := by
  unfold Table.modify
  congr 1
  refine List.map_congr_left fun slot inside => List.map_congr_left fun p member => ?_
  cases p with
  | none => rfl
  | some e =>
    rw [Option.map_some, Option.map_some]
    split
    · next here => rw [same e (mem_entries.mpr ⟨slot, inside, member⟩) here]
    · rfl

theorem modify_self {change : CacheEntry → CacheEntry} {a : Nat}
    (same : ∀ e ∈ entries t, e.address = a → change e = e) : t.modify a change = t := by
  have unchanged : t.modify a change = t.modify a fun e => e := modify_eq same
  rw [unchanged]
  unfold Table.modify
  have slots : t.slots.map (fun slot => slot.map fun p => p.map fun e =>
      if e.address = a then e else e) = t.slots := by
    refine (List.map_congr_left fun slot _ => ?_).trans t.slots.map_id
    refine (List.map_congr_left fun p _ => ?_).trans slot.map_id
    cases p with
    | none => rfl
    | some e => rw [Option.map_some, ite_self]; rfl
  rw [slots]

theorem modify_modify {e' : CacheEntry} {change : CacheEntry → CacheEntry} {a : Nat}
    (address : e'.address = a) :
    (t.modify a fun _ => e').modify a change = t.modify a fun _ => change e' := by
  unfold Table.modify
  dsimp only
  congr 1
  rw [List.map_map]
  refine List.map_congr_left fun slot _ => ?_
  rw [Function.comp_apply, List.map_map]
  refine List.map_congr_left fun p _ => ?_
  cases p with
  | none => rfl
  | some e =>
    simp only [Function.comp_apply, Option.map_some]
    split
    · rfl
    · rfl

theorem lockRead_right {e : CacheEntry} (right : Right t e) :
    e.lockReadResponse = some { e with responseLock := true, readers := e.readers + 1 } := by
  unfold CacheEntry.lockReadResponse
  by_cases locked : e.responseLock = true
  · rw [if_pos locked, if_neg (by simp [right.writeLock])]
    congr 1
    cases e
    simp_all
  · rw [if_neg locked]

theorem unlock_lockRead {e : CacheEntry} (right : Right t e) :
    CacheEntry.unlockReadResponse { e with responseLock := true, readers := e.readers + 1 } = e := by
  have count := right.readers
  have lock := right.readLock
  unfold CacheEntry.unlockReadResponse
  by_cases idle : e.readers = 0
  · have free : e.responseLock = false := by
      rw [lock, idle]
      rfl
    rw [if_pos (by simp [idle])]
    cases e
    simp_all
  · have held : e.responseLock = true := by
      rw [lock]
      exact decide_eq_true (by omega)
    rw [if_neg (by simp [idle])]
    cases e
    simp_all

theorem unlockRead_right {e : CacheEntry} (right : Right t e) (held : 0 < e.readers) :
    e.unlockReadResponse =
      { e with readers := e.readers - 1, responseLock := decide (0 < e.readers - 1) } := by
  have lock : e.responseLock = true := by
    rw [right.readLock]
    exact decide_eq_true held
  unfold CacheEntry.unlockReadResponse
  by_cases last : e.readers - 1 = 0
  · rw [if_pos last]
    simp [last]
  · have more : 0 < e.readers - 1 := by omega
    rw [if_neg last, decide_eq_true more, ← lock]

/-- A response that is only looked at is locked and unlocked again. -/
theorem peek_unchanged (inv : Inv next t) (url : Chars) : Leaves (· = t) (peek url t) := by
  unfold peek
  split
  · exact fun _ => rfl
  · next e found =>
      have there := (find_some found).1
      have right := inv.disciplined e there
      rw [lockRead_right right]
      dsimp only
      rw [unlock_lockRead right, modify_self fun x inside here =>
        (inv.linked.eq_of_address inside there here).symm]
      exact leaves_returned rfl

theorem peek_leaves (inv : Inv next t) (url : Chars) : Leaves (Inv next) (peek url t) := by
  intro ends
  rw [peek_unchanged inv url ends]
  exact inv

/-! ## Holding and releasing a response -/

theorem countP_unfiled {locked : List (File × Option Nat)} {file : File} {a : Nat}
    (other : ∀ b ∈ locked, b.1 = file → b.2 ≠ some a) :
    (locked.filter (·.1 ≠ file)).countP (fun b => decide (b.2 = some a)) =
      locked.countP fun b => decide (b.2 = some a) := by
  rw [List.countP_filter]
  refine List.countP_congr fun b member => ?_
  simp only [Bool.and_eq_true, decide_eq_true_eq, and_iff_left_iff_imp]
  exact fun entry key => other b member key entry

theorem nodup_filter {locked : List (File × Option Nat)} (files : (locked.map Prod.fst).Nodup)
    (p : File × Option Nat → Bool) : ((locked.filter p).map Prod.fst).Nodup :=
  files.sublist (List.filter_sublist.map _)

/-- The file that `fopen` answers is not one a client holds. -/
def Unheld (t : Table) (file : File) : Prop := ∀ b ∈ t.lockedEntries, b.1 = file → b.2 = none

theorem getResponse_leaves (inv : Inv next t) {url : Chars} {file : File} {disk : Disk}
    (unheld : Unheld t file) (works : t.find url ≠ none →
      disk.readMetadata = false ∧ disk.openBody = false) :
    Leaves (Inv next) (getResponse url file disk t) := by
  unfold getResponse
  split
  · exact leaves_returned inv
  · next e found =>
      have there := (find_some found).1
      have right := inv.disciplined e there
      rcases works (by rw [found]; nofun) with ⟨reads, opens⟩
      rw [lockRead_right right, reads, opens]
      apply leaves_returned
      have twice : (t.modify e.address fun _ =>
          { e with responseLock := true, readers := e.readers + 1 }).modify e.address
            (fun x => { x with hits := x.hits + 1 }) =
          t.modify e.address fun _ =>
            { e with responseLock := true, readers := e.readers + 1, hits := e.hits + 1 } :=
        modify_modify rfl
      unfold Table.bindEntry
      rw [twice]
      have free : ∀ a, ∀ b ∈ t.lockedEntries, b.1 = file → b.2 ≠ some a := by
        intro a b member key entry
        rw [unheld b member key] at entry
        cases entry
      have mine : ((file, some e.address) :: t.lockedEntries.filter (·.1 ≠ file)).countP
          (fun b => decide (b.2 = some e.address)) = holders t e.address + 1 := by
        rw [List.countP_cons_of_pos (by simp), countP_unfiled (free e.address)]
        rfl
      refine inv.change there rfl rfl ?_ ?_ ?_ ⟨?_, ?_, right.writeLock⟩
      · intro b member a entry
        rcases List.mem_cons.mp member with rfl | old
        · cases entry
          exact ⟨e, there, rfl⟩
        · exact inv.linked.bound b (List.mem_filter.mp old).1 a entry
      · rw [List.map_cons, List.nodup_cons]
        refine ⟨fun member => ?_, nodup_filter inv.linked.files _⟩
        rcases List.mem_map.mp member with ⟨b, inside, key⟩
        exact of_decide_eq_true (List.mem_filter.mp inside).2 key
      · intro a different
        rw [List.countP_cons_of_neg (by simpa using Ne.symm different)]
        exact countP_unfiled (free a)
      · change e.readers + 1 = _
        rw [right.readers]
        exact (congrArg Int.ofNat mine).symm
      · have := right.readers
        exact (decide_eq_true (show 0 < e.readers + 1 by omega)).symm

theorem Inv.relinked {locked : List (File × Option Nat)} (inv : Inv next t)
    (files : (locked.map Prod.fst).Nodup)
    (bound : ∀ b ∈ locked, ∀ a, b.2 = some a → ∃ x ∈ entries t, x.address = a)
    (counts : ∀ a, locked.countP (fun b => decide (b.2 = some a)) = holders t a) :
    Inv next { t with lockedEntries := locked } := by
  refine ⟨⟨inv.shape.slots, inv.shape.unique, inv.shape.placed, inv.shape.noNull⟩,
    ⟨inv.linked.addresses, inv.linked.below, bound, files⟩, fun e member => ?_⟩
  have right := inv.disciplined e member
  refine ⟨?_, right.readLock, right.writeLock⟩
  rw [right.readers, ← counts]
  rfl

/-- Releasing a file takes one holder away from its entry. -/
theorem countP_released {locked : List (File × Option Nat)} (files : (locked.map Prod.fst).Nodup)
    {file : File} {a : Nat} (member : (file, some a) ∈ locked) :
    (locked.filter (·.1 ≠ file)).countP (fun b => decide (b.2 = some a)) + 1 =
      locked.countP fun b => decide (b.2 = some a) := by
  induction locked with
  | nil => cases member
  | cons b rest ih =>
    rw [List.map_cons, List.nodup_cons] at files
    rcases List.mem_cons.mp member with rfl | later
    · have alone : ∀ b ∈ rest, b.1 ≠ file := by
        intro b inside same
        exact files.1 (List.mem_map.mpr ⟨b, inside, same⟩)
      have kept : rest.filter (·.1 ≠ file) = rest :=
        List.filter_eq_self.mpr fun b inside => decide_eq_true (alone b inside)
      rw [List.filter_cons_of_neg (by simp), kept, List.countP_cons_of_pos (by simp)]
    · have other : b.1 ≠ file := by
        intro same
        exact files.1 (List.mem_map.mpr ⟨_, later, same.symm⟩)
      rw [List.filter_cons_of_pos (by simpa using other), List.countP_cons, List.countP_cons,
        ← ih files.2 later]
      omega

theorem uncouple_leaves (inv : Inv next t) (file : File) :
    Leaves (Inv next) (t.uncouple file) := by
  unfold Table.uncouple
  split
  · next missing =>
      refine fun _ => inv.relinked ?_ ?_ ?_
      · rw [List.map_cons, List.nodup_cons]
        refine ⟨fun member => ?_, inv.linked.files⟩
        rcases List.mem_map.mp member with ⟨b, inside, key⟩
        exact List.find?_eq_none.mp missing b inside (decide_eq_true key)
      · intro b member a entry
        rcases List.mem_cons.mp member with rfl | old
        · cases entry
        · exact inv.linked.bound b old a entry
      · intro a
        exact List.countP_cons_of_neg (by simp)
  · exact fun _ => inv
  · next f a found =>
      have member : (f, some a) ∈ t.lockedEntries := List.mem_of_find?_eq_some found
      have key := List.find?_some found
      rw [decide_eq_true_eq] at key
      subst key
      rcases inv.linked.bound _ member a rfl with ⟨e, there, here⟩
      subst here
      have right := inv.disciplined e there
      have held := holders_pos member rfl
      have one := countP_released inv.linked.files member
      have count := right.readers
      have const : t.modify e.address CacheEntry.unlockReadResponse =
          t.modify e.address fun _ =>
            { e with readers := e.readers - 1, responseLock := decide (0 < e.readers - 1) } := by
        refine modify_eq fun x inside same => ?_
        rw [inv.linked.eq_of_address inside there same, unlockRead_right right (by omega)]
      have only : { t with lockedEntries := t.lockedEntries.filter (·.1 ≠ f) }.modify e.address
          CacheEntry.unlockReadResponse = _ :=
        congrArg (fun t' : Table =>
          { t' with lockedEntries := t.lockedEntries.filter (·.1 ≠ f) }) const
      have other : ∀ a', a' ≠ e.address → ∀ b ∈ t.lockedEntries, b.1 = f → b.2 ≠ some a' := by
        intro a' different b inside same entry
        have unique : b = (f, some e.address) :=
          List.inj_on_of_nodup_map inv.linked.files inside member same
        rw [unique] at entry
        exact different (Option.some.inj entry).symm
      have good : Inv next { t.modify e.address (fun _ =>
            { e with readers := e.readers - 1, responseLock := decide (0 < e.readers - 1) }) with
          lockedEntries := t.lockedEntries.filter (·.1 ≠ f) } := by
        refine inv.change there rfl rfl
          (fun b inside => inv.linked.bound b (List.mem_filter.mp inside).1)
          (nodup_filter inv.linked.files _)
          (fun a' different => countP_unfiled (other a' different))
          ⟨?_, rfl, right.writeLock⟩
        change e.readers - 1 = ((t.lockedEntries.filter (·.1 ≠ f)).countP
          (fun b => decide (b.2 = some e.address)) : Nat)
        unfold holders at count
        omega
      dsimp only
      rw [only]
      split
      · exact fun _ => good
      · exact leaves_returned good

/-! ## Updating, storing and purging -/

theorem lockWrite_right {e locked : CacheEntry} (right : Right t e)
    (taken : e.lockWriteResponse = some locked) :
    e.responseLock = false ∧ e.readers = 0 ∧
      locked = { e with responseLock := true, responseWriteLock := true } := by
  unfold CacheEntry.lockWriteResponse at taken
  split at taken
  · cases taken
  · next free =>
      cases taken
      rw [right.writeLock, Bool.or_false, Bool.not_eq_true] at free
      have lock := right.readLock
      have count := right.readers
      rw [free] at lock
      have idle := of_decide_eq_false lock.symm
      exact ⟨free, by omega, rfl⟩

/-- A change of the entry's own data: nobody holds it any more or any less. -/
theorem Inv.rewrite {e e' : CacheEntry} (inv : Inv next t) (there : e ∈ entries t)
    (same : identity e' = identity e) : Inv next (t.modify e.address fun _ => e') := by
  have right := inv.disciplined e there
  simp only [identity, Prod.mk.injEq] at same
  rcases same with ⟨address, url, -, -, readers, lock, writeLock⟩
  have right' : Right { t.modify e.address (fun _ => e') with lockedEntries := t.lockedEntries }
      e' := by
    refine ⟨?_, ?_, writeLock.trans right.writeLock⟩
    · rw [readers, address]
      exact right.readers
    · rw [lock, readers]
      exact right.readLock
  exact inv.change there address url inv.linked.bound inv.linked.files (fun _ _ => rfl) right'

theorem updateEntry_leaves (inv : Inv next t) {url : Chars} {disk : Disk} (requestTime : Int)
    (headers : List Chars) (now : Int)
    (works : ∀ e, t.find url = some e → e.responseLock = false →
      disk.readMetadata = false ∧ disk.writeMetadata = false) :
    Leaves (Inv next) (updateEntry config url requestTime headers now disk t) := by
  unfold updateEntry
  split
  · exact fun _ => inv
  · next e found =>
      have there := (find_some found).1
      have right := inv.disciplined e there
      split
      · exact fun ends => absurd rfl ends
      · next locked taken =>
          rcases lockWrite_right right taken with ⟨free, -, shape⟩
          rcases works e found free with ⟨reads, writes⟩
          rw [reads, writes]
          subst shape
          refine leaves_returned (inv.rewrite there ?_)
          have kept : identity (renewed config requestTime headers now _) = _ :=
            renewed_identity requestTime headers now
              { e with responseLock := true, responseWriteLock := true }
          simp only [identity, Prod.mk.injEq] at kept ⊢
          rcases kept with ⟨address, url, hash, size, readers, -, -⟩
          exact ⟨address, url, hash, size, readers, free.symm, right.writeLock.symm⟩

theorem storeResponse_leaves (inv : Inv next t) {url : Chars} (requestTime : Int)
    (headers : List Chars) (body : Nat) (cachename : Chars) (now : Int) (disk : Disk)
    (new : ∀ other ∈ entries t, other.url ≠ url) :
    Leaves (Inv (next + 1))
      (storeResponse config next url requestTime headers body cachename now disk t) := by
  unfold storeResponse
  dsimp only
  have kept : identity (renewed config requestTime headers now _) = _ :=
    renewed_identity requestTime headers now (CacheEntry.make next url)
  unfold renewed at kept
  simp only [identity, Prod.mk.injEq] at kept
  rcases kept with ⟨address, same_url, hash, -, readers, lock, writeLock⟩
  split
  · exact leaves_returned inv.later
  · split
    · exact fun _ => inv.later
    · generalize calculateTime config.defaultExpiration requestTime now _ = e at *
      have own : e.url = url := same_url
      have home : ({ e with cachename, size := body } : CacheEntry).hash = getHash e.url := by
        rw [own]
        exact hash
      rw [addEntry_eq home]
      refine dumpIndex_leaves (inv_shrinks _) (fun t n inv => inv.dumped n) ?_ now disk
      refine inv.withEntry address (fun other inside => ?_) readers lock writeLock
      rw [own]
      exact new other inside

theorem forEach_stuck {dispose : CacheEntry → Disposal} {blockSize : Nat} {slot : Slot} (size : Nat)
    (idle : ∀ e e', some e ∈ slot → dispose e = .delete e' → e'.readers = 0)
    (waits : ∃ e, some e ∈ slot ∧ dispose e = .wait) :
    (forEach dispose blockSize slot size).1 = .stuck := by
  induction slot generalizing size with
  | nil =>
    rcases waits with ⟨e, member, _⟩
    cases member
  | cons p rest ih =>
    have later : ∀ size, (∃ e, some e ∈ rest ∧ dispose e = .wait) →
        (forEach dispose blockSize rest size).1 = .stuck := fun size =>
      ih size fun e e' member => idle e e' (List.mem_cons_of_mem _ member)
    rcases waits with ⟨e, member, wait⟩
    cases p with
    | none =>
      rcases List.mem_cons.mp member with same | inside
      · cases same
      · exact later size ⟨e, inside, wait⟩
    | some first =>
      rw [forEach]
      rcases List.mem_cons.mp member with same | inside
      · cases same
        rw [wait]
      · cases handed : dispose first with
        | keep => exact later size ⟨e, inside, wait⟩
        | wait => rfl
        | delete e' =>
          have free := idle first e' (List.mem_cons_self ..) handed
          dsimp only
          rw [if_neg (by simpa using free)]
          exact later _ ⟨e, inside, wait⟩

/-- The old entry goes, or the operation waits for those who read it. -/
theorem removeEntry_cases (inv : Inv next t) (url : Chars) :
    (t.removeEntry url).1 = .stuck ∨
      t.removeEntry url = (.returned, without (fun e => decide (e.url = url)) t) ∧
        ∀ e ∈ entries t, e.url = url → e.readers = 0 := by
  have handing : ∀ e ∈ entries t, ∀ e', deleteCacheEntry url e = .delete e' →
      e'.readers = 0 ∧ e'.size = e.size := by
    intro e there e' handed
    unfold deleteCacheEntry at handed
    split at handed
    · split at handed
      · cases handed
      · next locked taken =>
          cases handed
          rcases lockWrite_right (inv.disciplined e there) taken with ⟨-, idle, shape⟩
          rw [shape]
          exact ⟨idle, rfl⟩
    · cases handed
  by_cases waits : ∃ e ∈ entries t, deleteCacheEntry url e = .wait
  · rcases waits with ⟨e, there, wait⟩
    have same : e.url = url := by
      by_contra other
      rw [deleteCacheEntry, if_neg other] at wait
      cases wait
    rcases mem_entries.mp there with ⟨slot, inside, member⟩
    rcases List.mem_iff_getElem?.mp inside with ⟨h, found⟩
    have home := inv.shape.placed h slot found e member
    rw [same] at home
    rw [home] at found
    left
    unfold Table.removeEntry
    rw [found]
    exact forEach_stuck t.currentSize
      (fun e e' member handed => (handing e (mem_entries.mpr ⟨slot, inside, member⟩) e' handed).1)
      ⟨e, member, wait⟩
  · right
    have deletes : ∀ e ∈ entries t,
        Deletes (deleteCacheEntry url) (fun e => decide (e.url = url)) e := by
      intro e there
      by_cases same : e.url = url
      · cases handed : deleteCacheEntry url e with
        | keep =>
          rw [deleteCacheEntry, if_pos same] at handed
          split at handed <;> cases handed
        | wait => exact absurd ⟨e, there, handed⟩ waits
        | delete e' =>
          exact .inr ⟨decide_eq_true same, e', handed, handing e there e' handed⟩
      · exact .inl ⟨decide_eq_false same, if_neg same⟩
    refine ⟨removeEntry_deletes inv.shape deletes, fun e there same => ?_⟩
    rcases deletes e there with ⟨other, _⟩ | ⟨_, e', handed, _⟩
    · exact absurd same (of_decide_eq_false other)
    · rw [deleteCacheEntry, if_pos same] at handed
      split at handed
      · cases handed
      · next locked taken => exact (lockWrite_right (inv.disciplined e there) taken).2.1

/-- With no response in use nobody reads an entry. -/
theorem purge_eq (inv : Inv next t) : purge t =
    if t.lockedEntries ≠ [] then (.raised, t)
    else (.returned, { without (fun _ => true) t with newEntries := 0 }) := by
  unfold purge
  by_cases used : t.lockedEntries ≠ []
  · rw [if_pos used, if_pos used]
  · rw [if_neg used, if_neg used]
    have deletes : ∀ e ∈ entries t, Deletes .delete (fun _ => true) e := by
      intro e there
      have count := (inv.disciplined e there).readers
      rw [holders, not_not.mp used] at count
      exact .inr ⟨rfl, e, rfl, count, rfl⟩
    rw [Table.deleteAllEntries, clean_deletes deletes]

theorem purge_leaves (inv : Inv next t) : Leaves (Inv next) (purge t) := by
  rw [purge_eq inv]
  split
  · exact fun _ => inv
  · next unused =>
      refine leaves_returned (Inv.dumped (inv.without fun e there _ => ?_) 0)
      have count := (inv.disciplined e there).readers
      rw [holders, not_not.mp unused] at count
      exact count

/-- `purge_cache` empties the table or raises and leaves every entry in place. -/
theorem purge_all_or_nothing (inv : Inv next t) :
    (purge t).1 = .returned ∧ entries (purge t).2 = [] ∨
      (purge t).1 = .raised ∧ entries (purge t).2 = entries t := by
  rw [purge_eq inv]
  split
  · exact .inr ⟨rfl, rfl⟩
  · refine .inl ⟨rfl, ?_⟩
    change entries (without (fun _ => true) t) = []
    rw [entries_without]
    simp

/-! ## The handlers that break the discipline -/

theorem mem_modify_self {e e' : CacheEntry} (there : e ∈ entries t) :
    e' ∈ entries (t.modify e.address fun _ => e') := by
  rw [entries_modify]
  exact List.mem_map.mpr ⟨e, there, if_pos rfl⟩

theorem getResponse_breaks (inv : Inv next t) {url : Chars} {file : File} {disk : Disk}
    {e : CacheEntry} (found : t.find url = some e)
    (fails : (disk.readMetadata || disk.openBody) = true) :
    (getResponse url file disk t).1 = .raised ∧
      ¬ Disciplined (getResponse url file disk t).2 := by
  have there := (find_some found).1
  have right := inv.disciplined e there
  have result : getResponse url file disk t = (.raised, t.modify e.address fun _ =>
      { e with responseLock := true, readers := e.readers + 1 }) := by
    unfold getResponse
    rw [found]
    dsimp only
    rw [lockRead_right right]
    dsimp only
    rw [if_pos fails]
  rw [result]
  refine ⟨rfl, fun disciplined => ?_⟩
  have counted : e.readers + 1 = holders t e.address :=
    (disciplined _ (mem_modify_self there)).readers
  have count := right.readers
  omega

theorem updateEntry_breaks (inv : Inv next t) {url : Chars} {disk : Disk} (requestTime : Int)
    (headers : List Chars) (now : Int) {e : CacheEntry} (found : t.find url = some e)
    (free : e.responseLock = false) (fails : (disk.readMetadata || disk.writeMetadata) = true) :
    (updateEntry config url requestTime headers now disk t).1 = .raised ∧
      ¬ Disciplined (updateEntry config url requestTime headers now disk t).2 := by
  have there := (find_some found).1
  have right := inv.disciplined e there
  have taken : e.lockWriteResponse =
      some { e with responseLock := true, responseWriteLock := true } := by
    unfold CacheEntry.lockWriteResponse
    rw [if_neg (by simp [free, right.writeLock])]
  have idle := (lockWrite_right right taken).2.1
  have result : updateEntry config url requestTime headers now disk t =
      (.raised, t.modify e.address fun _ => (renewed config requestTime headers now
        { e with responseLock := true, responseWriteLock := true }).unlockReadResponse) := by
    unfold updateEntry
    rw [found]
    dsimp only
    rw [taken]
    dsimp only
    rw [if_pos fails]
    rfl
  have kept : identity (renewed config requestTime headers now _) = _ :=
    renewed_identity requestTime headers now
      { e with responseLock := true, responseWriteLock := true }
  simp only [identity, Prod.mk.injEq] at kept
  rw [result]
  refine ⟨rfl, fun disciplined => ?_⟩
  have counted := (disciplined _ (mem_modify_self there)).readers
  generalize renewed config requestTime headers now
    { e with responseLock := true, responseWriteLock := true } = merged at *
  have minus : merged.unlockReadResponse.readers = -1 := by
    unfold CacheEntry.unlockReadResponse
    rw [if_neg (by omega)]
    change merged.readers - 1 = -1
    omega
  rw [minus] at counted
  omega

/-! ## Runs -/

/-- No exception leaves the two operations that hold an entry's lock when it comes. -/
def Careful (s : State) : Call → Prop
  | .getCachedResponse url _ disk =>
    s.table.find url ≠ none → disk.readMetadata = false ∧ disk.openBody = false
  | .updateResponse url _ _ _ disk =>
    ∀ e, s.table.find url = some e → e.responseLock = false →
      disk.readMetadata = false ∧ disk.writeMetadata = false
  | _ => True

/-- `fopen` does not answer a file that a client still holds. -/
def Possible (s : State) : Call → Prop
  | .getCachedResponse _ file _ => Unheld s.table file
  | _ => True

/-- Between operations, that is unless one of them never ends, the locks are right. -/
def Between (s : State) : Prop := s.hung = false → Disciplined s.table

def Ready (s : State) : Prop := s.hung = false → Inv s.nextAddress s.table

def PurgesAll (config : Config) (s : State) (c : Call) : Prop :=
  s.hung = false → c = .purgeCache →
    (perform config s.nextAddress s.table c).1 = .returned ∧
        entries (perform config s.nextAddress s.table c).2 = [] ∨
      (perform config s.nextAddress s.table c).1 = .raised ∧
        entries (perform config s.nextAddress s.table c).2 = entries s.table

theorem perform_leaves {c : Call} {s : State} (inv : Inv s.nextAddress s.table)
    (possible : Possible s c) (careful : Careful s c) :
    Leaves (Inv (s.nextAddress + 1)) (perform config s.nextAddress s.table c) := by
  have later : ∀ {result}, Leaves (Inv s.nextAddress) result →
      Leaves (Inv (s.nextAddress + 1)) result := fun left ends => (left ends).later
  cases c with
  | cacheResponse url requestTime headers body cachename now disk =>
    rw [perform]
    split
    · rcases removeEntry_cases inv url with stuck | ⟨removed, idle⟩
      · split
        · next left same =>
            rw [same] at stuck
            cases stuck
        · next exit left _ same =>
            rw [same] at stuck
            exact fun ends => absurd stuck ends
      · rw [removed]
        refine storeResponse_leaves (inv.without fun e there gone => ?_) requestTime headers body
          cachename now disk fun other inside => ?_
        · exact idle e there (of_decide_eq_true gone)
        · rw [entries_without, List.mem_filter] at inside
          simpa using inside.2
    · exact leaves_returned inv.later
  | updateResponse url requestTime headers now disk =>
    exact later (updateEntry_leaves inv requestTime headers now careful)
  | getConditionalRequestHeaders url => exact later (peek_leaves inv url)
  | isUrlValid url =>
    rw [perform]
    split
    · exact leaves_returned inv.later
    · exact later (peek_leaves inv url)
  | getCachedResponse url file disk => exact later (getResponse_leaves inv possible careful)
  | releaseCachedResponse file => exact later (uncouple_leaves inv file)
  | performGarbageCollection now =>
    exact later (performGarbageCollection_leaves (inv_shrinks _) inv now)
  | purgeCache => exact later (purge_leaves inv)

theorem step_ready {s : State} {c : Call} (ready : Ready s) (possible : Possible s c)
    (sound : s.hung = true ∨ Careful s c) : Ready (s.step config c) := by
  unfold State.step
  split
  · exact ready
  · next running =>
      have inv := ready (Bool.not_eq_true _ ▸ running)
      have left : Leaves _ (perform config s.nextAddress s.table c) :=
        perform_leaves inv possible (sound.resolve_left running)
      split
      · next t same => exact fun more => nomatch more
      · next exit t other same =>
          rw [same] at left
          exact fun _ => left other

theorem step_breaks {s : State} {c : Call} (ready : Ready s)
    (unsound : ¬ (s.hung = true ∨ Careful s c)) : ¬ Between (s.step config c) := by
  rw [not_or] at unsound
  rcases unsound with ⟨running, careless⟩
  have awake : s.hung = false := Bool.not_eq_true _ ▸ running
  have inv := ready awake
  have spoils : (perform config s.nextAddress s.table c).1 = .raised ∧
      ¬ Disciplined (perform config s.nextAddress s.table c).2 := by
    cases c with
    | getCachedResponse url file disk =>
      simp only [Careful, Classical.not_imp, not_and_or, Bool.not_eq_false] at careless
      rcases careless with ⟨present, fails⟩
      cases found : s.table.find url with
      | none => exact absurd found present
      | some e =>
        exact getResponse_breaks inv found (by simpa [Bool.or_eq_true] using fails)
    | updateResponse url requestTime headers now disk =>
      simp only [Careful, not_forall, not_and_or, Bool.not_eq_false] at careless
      rcases careless with ⟨e, found, free, fails⟩
      exact updateEntry_breaks inv requestTime headers now found free
        (by simpa [Bool.or_eq_true] using fails)
    | cacheResponse | getConditionalRequestHeaders | isUrlValid | releaseCachedResponse
    | performGarbageCollection | purgeCache => exact absurd trivial careless
  intro between
  unfold State.step at between
  rw [if_neg running] at between
  rcases same : perform config s.nextAddress s.table c with ⟨exit, t⟩
  rw [same] at spoils between
  have raised : exit = .raised := spoils.1
  subst raised
  exact spoils.2 (between awake)

/-- In a run in which `fopen` answers files nobody holds, the locks are right between the
operations exactly when no exception meets `get_cached_response` or `update_response`
while it holds an entry's lock; then `purge_cache` empties the table or raises and leaves
every entry in place. -/
theorem locksRight_iff (config : Config) (blockSize : Nat) (calls : List Call)
    (possible : AllSteps (State.step config) Possible (State.empty blockSize) calls) :
    (AfterEach (State.step config) Between (State.empty blockSize) calls ∧
      AllSteps (State.step config) (PurgesAll config) (State.empty blockSize) calls) ↔
    AllSteps (State.step config) (fun s c => s.hung = true ∨ Careful s c) (State.empty blockSize)
      calls := by
  have exact_step : ∀ s c, Ready s → Possible s c →
      (Between (s.step config c) ↔ s.hung = true ∨ Careful s c) := by
    intro s c ready possible
    constructor
    · intro between
      by_contra unsound
      exact step_breaks ready unsound between
    · exact fun sound awake => (step_ready ready possible sound awake).disciplined
  have ready_after : ∀ s c, Ready s → Possible s c → Between (s.step config c) →
      Ready (s.step config c) := fun s c ready possible between =>
    step_ready ready possible ((exact_step s c ready possible).mp between)
  have start : Ready (State.empty blockSize) := fun _ => inv_empty blockSize
  have locks := afterEach_iff (State.step config) exact_step ready_after start possible
  refine ⟨fun both => locks.mp both.1, fun sound => ⟨locks.mpr sound, ?_⟩⟩
  refine allSteps_of_kept (State.step config) (fun s c => step_ready) ?_ start possible sound
  intro s c ready _ _ awake purges
  subst purges
  exact purge_all_or_nothing (ready awake)

/-! A response is cached, and reading its headers back fails. -/

def quietly : Config :=
  { totalSize := 20971520, folderSize := 2, gcBuffer := 2, maxEntrySize := 3145728,
    defaultExpiration := 86400, expireIgnored := false, alwaysValidate := false,
    lib := ⟨fun _ => 0, fun _ => 0⟩ }

def page : Chars := ['h', 't', 't', 'p', ':']

def caching : Call := .cacheResponse page 0 [] 10 ['f'] 0 .works

def unreadable : Disk := { Disk.works with readMetadata := true }

/-- The cache with that one response in it. -/
def cached : State := (State.empty 4096).step quietly caching

theorem cached_awake : cached.hung = false := by decide +kernel

theorem cached_found : (cached.table.find page).isSome = true := by decide +kernel

theorem cached_unheld (file : File) : Unheld cached.table file := by
  have unlocked : cached.table.lockedEntries = [] := by decide +kernel
  intro b held
  rw [unlocked] at held
  cases held

theorem locksRight_iff_held : (AfterEach (State.step quietly) Between (State.empty 4096)
      [caching, .getCachedResponse page 1 .works, .purgeCache] ∧
    AllSteps (State.step quietly) (PurgesAll quietly) (State.empty 4096)
      [caching, .getCachedResponse page 1 .works, .purgeCache]) ↔
    AllSteps (State.step quietly) (fun s c => s.hung = true ∨ Careful s c) (State.empty 4096)
      [caching, .getCachedResponse page 1 .works, .purgeCache] :=
  locksRight_iff quietly 4096 _ ⟨trivial, cached_unheld 1, trivial, trivial⟩

/-- The response is cached; then reading its headers fails, and its entry stays locked
for a reader there is not. -/
theorem locksRight_fails :
    AllSteps (State.step quietly) Possible (State.empty 4096)
      [caching, .getCachedResponse page 1 unreadable] ∧
    ¬ AfterEach (State.step quietly) Between (State.empty 4096)
      [caching, .getCachedResponse page 1 unreadable] := by
  refine ⟨⟨trivial, cached_unheld 1, trivial⟩, ?_⟩
  rintro ⟨-, after, -⟩
  have ready : Ready cached := step_ready (fun _ => inv_empty 4096) trivial (.inr trivial)
  refine step_breaks ready ?_ after
  rintro (hung | careful)
  · rw [cached_awake] at hung
    cases hung
  · have found := cached_found
    cases present : cached.table.find page with
    | none =>
      rw [present] at found
      cases found
    | some e => exact nomatch (careful (by rw [present]; nofun)).1

end Libdap.Guarantees.HTTPCacheLocks
