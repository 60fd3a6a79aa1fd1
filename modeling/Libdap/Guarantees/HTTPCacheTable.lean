import Mathlib.Tactic
import Libdap.Source.HTTPCache

/-!
# The entries of the cache table

`entries` is the table without its slots. Deleting is a filter of it, a change through a
pointer is a map over it, and adding puts one entry in front, up to order; each keeps the
shape of the table.
-/
namespace Libdap.Guarantees.HTTPCacheTable
open Libdap.Source Libdap.Source.HTTPCacheTable

def entries (t : Table) : List CacheEntry := t.slots.flatten.filterMap id

theorem mem_entries {t : Table} {e : CacheEntry} :
    e ∈ entries t ↔ ∃ slot ∈ t.slots, some e ∈ slot := by
  simp [entries, and_comm]

/-- Each URL has at most one entry, it lies in the slot of its hash code, and no slot
holds a null pointer. -/
structure Shape (t : Table) : Prop where
  slots : t.slots.length = cacheTableSize
  unique : ((entries t).map CacheEntry.url).Nodup
  placed : ∀ h slot, t.slots[h]? = some slot → ∀ e, some e ∈ slot → h = getHash e.url
  noNull : ∀ slot ∈ t.slots, none ∉ slot

theorem getHash_lt (url : Chars) : getHash url < cacheTableSize := by
  unfold getHash
  induction url.takeWhile (· ≠ '\x00') using List.reverseRecOn with
  | nil => decide
  | append_singleton text c ih =>
    rw [List.foldl_append]
    exact Nat.mod_lt _ (by decide)

/-! ## Deleting is filtering -/

/-- Exactly the doomed entries are handed to `remove_cache_entry`, and none of them is in
use. -/
def Deletes (dispose : CacheEntry → Disposal) (doomed : CacheEntry → Bool) (e : CacheEntry) :
    Prop :=
  doomed e = false ∧ dispose e = .keep ∨
    doomed e = true ∧ ∃ e', dispose e = .delete e' ∧ e'.readers = 0 ∧ e'.size = e.size

variable {dispose : CacheEntry → Disposal} {doomed : CacheEntry → Bool} {blockSize : Nat}

theorem release_size {e e' : CacheEntry} (same : e'.size = e.size) (size : Nat) :
    release blockSize size e' = release blockSize size e := by
  unfold release
  rw [same]

theorem forEach_deletes {slot : Slot} (size : Nat)
    (deletes : ∀ e, some e ∈ slot → Deletes dispose doomed e) :
    forEach dispose blockSize slot size =
      (.returned, slot.map (Option.filter fun e => !doomed e),
        ((slot.filterMap id).filter doomed).foldl (release blockSize) size) := by
  induction slot generalizing size with
  | nil => rfl
  | cons p rest ih =>
    have later := fun size => ih size fun e member => deletes e (List.mem_cons_of_mem _ member)
    cases p with
    | none =>
      rw [forEach, later]
      rfl
    | some e =>
      rcases deletes e (List.mem_cons_self ..) with ⟨kept, keeps⟩ | ⟨gone, e', handed, idle, same⟩
      · simp [forEach, keeps, later, kept, Option.filter]
      · simp [forEach, handed, idle, later, gone, Option.filter, release_size same]

/-- A slot without its doomed entries and its null pointers. -/
def survivors (doomed : CacheEntry → Bool) (slot : Slot) : Slot :=
  (slot.map (Option.filter fun e => !doomed e)).filter Option.isSome

theorem survivors_entries (slot : Slot) :
    (survivors doomed slot).filterMap id = (slot.filterMap id).filter fun e => !doomed e := by
  unfold survivors
  induction slot with
  | nil => rfl
  | cons p rest ih =>
    cases p with
    | none => simpa [Option.filter] using ih
    | some e => cases gone : doomed e <;> simpa [Option.filter, gone] using ih

theorem mem_survivors {slot : Slot} {e : CacheEntry} :
    some e ∈ survivors doomed slot ↔ some e ∈ slot ∧ doomed e = false := by
  have same : some e ∈ survivors doomed slot ↔ e ∈ (survivors doomed slot).filterMap id := by
    simp
  rw [same, survivors_entries]
  simp

theorem none_survivors (slot : Slot) : none ∉ survivors doomed slot := by
  simp [survivors]

theorem survivors_self {slot : Slot} (noNull : none ∉ slot)
    (spared : ∀ e, some e ∈ slot → doomed e = false) : survivors doomed slot = slot := by
  unfold survivors
  have same : slot.map (Option.filter fun e => !doomed e) = slot := by
    refine (List.map_congr_left fun p member => ?_).trans slot.map_id
    cases p with
    | none => rfl
    | some e => simp [Option.filter, spared e member]
  rw [same, List.filter_eq_self]
  intro p member
  cases p with
  | none => exact absurd member noNull
  | some e => rfl

theorem cleanSlot_deletes {slot : Slot} (size : Nat)
    (deletes : ∀ e, some e ∈ slot → Deletes dispose doomed e) :
    cleanSlot dispose blockSize slot size =
      (.returned, survivors doomed slot,
        ((slot.filterMap id).filter doomed).foldl (release blockSize) size) := by
  rw [cleanSlot, forEach_deletes size deletes]
  rfl

theorem cleanSlots_deletes {slots : List Slot} (size : Nat)
    (deletes : ∀ slot ∈ slots, ∀ e, some e ∈ slot → Deletes dispose doomed e) :
    cleanSlots dispose blockSize slots size =
      (.returned, slots.map (survivors doomed),
        ((slots.flatten.filterMap id).filter doomed).foldl (release blockSize) size) := by
  induction slots generalizing size with
  | nil => rfl
  | cons slot rest ih =>
    rw [cleanSlots, cleanSlot_deletes size (deletes slot (List.mem_cons_self ..))]
    dsimp only
    rw [ih _ fun slot' member => deletes slot' (List.mem_cons_of_mem _ member)]
    simp

/-- The table without its doomed entries. -/
def without (doomed : CacheEntry → Bool) (t : Table) : Table :=
  { t with
    slots := t.slots.map (survivors doomed),
    currentSize := ((entries t).filter doomed).foldl (release t.blockSize) t.currentSize }

theorem clean_deletes {t : Table} (deletes : ∀ e ∈ entries t, Deletes dispose doomed e) :
    t.clean dispose = (.returned, without doomed t) := by
  rw [Table.clean, cleanSlots_deletes t.currentSize fun slot member e inside =>
    deletes e (mem_entries.mpr ⟨slot, member, inside⟩)]
  rfl

theorem entries_without (t : Table) :
    entries (without doomed t) = (entries t).filter fun e => !doomed e := by
  unfold entries without
  dsimp only
  induction t.slots with
  | nil => rfl
  | cons slot rest ih =>
    simp only [List.map_cons, List.flatten_cons, List.filterMap_append, List.filter_append, ih,
      survivors_entries]

theorem Shape.without {t : Table} (shape : Shape t) : Shape (without doomed t) := by
  refine ⟨?_, ?_, ?_, ?_⟩
  · exact (List.length_map _).trans shape.slots
  · rw [entries_without]
    exact shape.unique.sublist (List.filter_sublist.map _)
  · intro h slot found e member
    change (t.slots.map (survivors doomed))[h]? = some slot at found
    rw [List.getElem?_map, Option.map_eq_some_iff] at found
    rcases found with ⟨old, there, rfl⟩
    exact shape.placed h old there e (mem_survivors.mp member).1
  · intro slot member
    rcases List.mem_map.mp member with ⟨old, _, rfl⟩
    exact none_survivors old

theorem filter_undoomed {slot : Slot} (spared : ∀ e, some e ∈ slot → doomed e = false) :
    (slot.filterMap id).filter doomed = [] := by
  rw [List.filter_eq_nil_iff]
  intro e member
  rw [spared e (by simpa using member)]
  exact Bool.false_ne_true

theorem filter_flatten {slots : List Slot} {h : Nat} {slot : Slot} (found : slots[h]? = some slot)
    (others : ∀ i slot, slots[i]? = some slot → i ≠ h → ∀ e, some e ∈ slot → doomed e = false) :
    (slots.flatten.filterMap id).filter doomed = (slot.filterMap id).filter doomed := by
  induction slots generalizing h with
  | nil => cases found
  | cons first rest ih =>
    rw [List.flatten_cons, List.filterMap_append, List.filter_append]
    cases h with
    | zero =>
      cases found
      have spared : ∀ e, some e ∈ rest.flatten → doomed e = false := by
        intro e member
        rcases List.mem_flatten.mp member with ⟨slot, there, inside⟩
        rcases List.mem_iff_getElem?.mp there with ⟨i, at_i⟩
        exact others (i + 1) slot at_i (Nat.succ_ne_zero i) e inside
      rw [filter_undoomed spared, List.append_nil]
    | succ h =>
      have spared := others 0 first rfl (Nat.succ_ne_zero h).symm
      rw [filter_undoomed spared, List.nil_append]
      exact ih found fun i slot at_i different => others (i + 1) slot at_i (by omega)

/-- `remove_entry_from_cache_table` looks at one slot only, as the others have no entry
for the URL. -/
theorem removeEntry_deletes {t : Table} {url : Chars} (shape : Shape t)
    (deletes : ∀ e ∈ entries t, Deletes (deleteCacheEntry url) (fun e => decide (e.url = url)) e) :
    t.removeEntry url = (.returned, without (fun e => decide (e.url = url)) t) := by
  have bound : getHash url < t.slots.length := by
    rw [shape.slots]
    exact getHash_lt url
  have found : t.slots[getHash url]? = some t.slots[getHash url] := List.getElem?_eq_getElem bound
  have others : ∀ i slot, t.slots[i]? = some slot → i ≠ getHash url → ∀ e, some e ∈ slot →
      decide (e.url = url) = false := by
    intro i slot there different e member
    have home := shape.placed i slot there e member
    refine decide_eq_false fun same => different ?_
    rw [home, same]
  have set_map : t.slots.set (getHash url)
      (survivors (fun e => decide (e.url = url)) t.slots[getHash url]) =
        t.slots.map (survivors fun e => decide (e.url = url)) := by
    refine List.ext_getElem? fun i => ?_
    rw [List.getElem?_set, List.getElem?_map]
    by_cases here : getHash url = i
    · subst here
      rw [if_pos rfl, if_pos bound, found]
      rfl
    · rw [if_neg here]
      cases there : t.slots[i]? with
      | none => rfl
      | some slot =>
        have noNull := shape.noNull slot (List.mem_of_getElem? there)
        rw [Option.map_some, survivors_self noNull (others i slot there (Ne.symm here))]
  unfold Table.removeEntry
  rw [found]
  dsimp only
  rw [cleanSlot_deletes t.currentSize fun e member =>
    deletes e (mem_entries.mpr ⟨_, List.getElem_mem bound, member⟩)]
  dsimp only
  rw [set_map, ← filter_flatten found others]
  rfl

/-! ## Changes through a pointer -/

variable {address : Nat} {change : CacheEntry → CacheEntry}

def changed (address : Nat) (change : CacheEntry → CacheEntry) (e : CacheEntry) : CacheEntry :=
  if e.address = address then change e else e

theorem entries_modify (t : Table) :
    entries (t.modify address change) = (entries t).map (changed address change) := by
  unfold entries Table.modify
  dsimp only
  induction t.slots with
  | nil => rfl
  | cons slot rest ih =>
    simp only [List.map_cons, List.flatten_cons, List.filterMap_append, List.map_append, ih]
    congr 1
    rw [List.filterMap_map, List.map_filterMap]
    rfl

theorem mem_modify {slot : Slot} {e : CacheEntry}
    (member : some e ∈ slot.map (Option.map (changed address change))) :
    ∃ old, some old ∈ slot ∧ changed address change old = e := by
  rcases List.mem_map.mp member with ⟨p, inside, same⟩
  rcases Option.map_eq_some_iff.mp same with ⟨old, rfl, result⟩
  exact ⟨old, inside, result⟩

theorem Shape.modify {t : Table} (shape : Shape t)
    (same : ∀ e ∈ entries t, (changed address change e).url = e.url) :
    Shape (t.modify address change) := by
  refine ⟨(List.length_map _).trans shape.slots, ?_, ?_, ?_⟩
  · have urls : ((entries t).map (changed address change)).map CacheEntry.url =
        (entries t).map CacheEntry.url := by
      rw [List.map_map]
      exact List.map_congr_left same
    rw [entries_modify, urls]
    exact shape.unique
  · intro h slot found e member
    change (t.slots.map _)[h]? = some slot at found
    rw [List.getElem?_map, Option.map_eq_some_iff] at found
    rcases found with ⟨old, there, rfl⟩
    rcases mem_modify member with ⟨before, inside, rfl⟩
    rw [same before (mem_entries.mpr ⟨old, List.mem_of_getElem? there, inside⟩)]
    exact shape.placed h old there before inside
  · intro slot member null
    rcases List.mem_map.mp member with ⟨old, there, rfl⟩
    rcases List.mem_map.mp null with ⟨p, inside, gone⟩
    cases p with
    | none => exact shape.noNull old there inside
    | some e => cases gone

/-! ## Adding -/

theorem flatten_modify {slots : List Slot} {h : Nat} (bound : h < slots.length)
    (p : Option CacheEntry) :
    (slots.modify h (· ++ [p])).flatten.Perm (p :: slots.flatten) := by
  induction slots generalizing h with
  | nil => cases bound
  | cons slot rest ih =>
    cases h with
    | zero =>
      simp only [List.modify_zero_cons, List.flatten_cons, List.append_assoc,
        List.singleton_append]
      exact List.perm_middle
    | succ h =>
      simp only [List.modify_succ_cons, List.flatten_cons]
      exact ((ih (Nat.lt_of_succ_lt_succ bound)).append_left slot).trans List.perm_middle

/-- The table with one entry more. -/
def withEntry (e : CacheEntry) (t : Table) : Table :=
  { t with
    slots := t.slots.modify (getHash e.url) (· ++ [some e]),
    currentSize := ((t.currentSize + entryDiskSpace e.size t.blockSize) % 2 ^ 64).toNat,
    newEntries := t.newEntries + 1 }

theorem addEntry_eq {e : CacheEntry} (hash : e.hash = getHash e.url) (t : Table) :
    t.addEntry e = (.returned, withEntry e t) := by
  have bound := getHash_lt e.url
  unfold Table.addEntry
  have inside : ¬ (e.hash > cacheTableSize - 1 ∨ e.hash < 0) := by
    rw [hash]
    omega
  rw [if_neg inside, hash, Int.toNat_natCast]
  rfl

theorem entries_withEntry {t : Table} (shape : Shape t) (e : CacheEntry) :
    (entries (withEntry e t)).Perm (e :: entries t) := by
  have bound : getHash e.url < t.slots.length := by
    rw [shape.slots]
    exact getHash_lt e.url
  exact (flatten_modify bound (some e)).filterMap id

theorem Shape.withEntry {t : Table} (shape : Shape t) {e : CacheEntry}
    (new : ∀ other ∈ entries t, other.url ≠ e.url) : Shape (withEntry e t) := by
  refine ⟨(List.length_modify ..).trans shape.slots, ?_, ?_, ?_⟩
  · rw [((entries_withEntry shape e).map CacheEntry.url).nodup_iff, List.map_cons,
      List.nodup_cons]
    refine ⟨fun member => ?_, shape.unique⟩
    rcases List.mem_map.mp member with ⟨other, inside, same⟩
    exact new other inside same
  · intro h slot found other member
    change (t.slots.modify (getHash e.url) _)[h]? = some slot at found
    rw [List.getElem?_modify] at found
    rcases Option.map_eq_some_iff.mp found with ⟨old, there, result⟩
    split at result
    · next here =>
        subst result
        rcases List.mem_append.mp member with inside | added
        · exact shape.placed h old there other inside
        · rw [List.mem_singleton, Option.some.injEq] at added
          rw [added, here]
    · subst result
      exact shape.placed h old there other member
  · intro slot member null
    rcases List.mem_iff_getElem?.mp member with ⟨h, found⟩
    change (t.slots.modify (getHash e.url) _)[h]? = some slot at found
    rw [List.getElem?_modify] at found
    rcases Option.map_eq_some_iff.mp found with ⟨old, there, result⟩
    have clean := shape.noNull old (List.mem_of_getElem? there)
    split at result
    · subst result
      rcases List.mem_append.mp null with inside | added
      · exact clean inside
      · cases List.mem_singleton.mp added
    · subst result
      exact clean null

/-! ## Finding -/

theorem find_some {t : Table} {url : Chars} {e : CacheEntry} (found : t.find url = some e) :
    e ∈ entries t ∧ e.url = url := by
  unfold Table.find at found
  rcases List.exists_of_findSome?_eq_some found with ⟨p, member, answer⟩
  cases p with
  | none => cases answer
  | some other =>
    dsimp only at answer
    split at answer
    · next same =>
        cases answer
        refine ⟨mem_entries.mpr ?_, same⟩
        cases there : t.slots[getHash url]? with
        | none =>
          rw [there] at member
          cases member
        | some slot =>
          rw [there] at member
          exact ⟨slot, List.mem_of_getElem? there, member⟩
    · cases answer

end Libdap.Guarantees.HTTPCacheTable
