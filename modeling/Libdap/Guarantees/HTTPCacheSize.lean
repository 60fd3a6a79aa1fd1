import Libdap.Guarantees.HTTPCacheLocks

/-!
# The size of the cache

The size is added to in one place and subtracted from in another, with a clamp at zero.
It is the sum over the entries of their space on disk after every operation: no entry
is dropped without its space, and the clamp never acts.
-/
namespace Libdap.Guarantees.HTTPCacheSize
open Libdap.Library.Runs
open Libdap.Source Libdap.Source.HTTPCacheTable Libdap.Source.HTTPCache
open HTTPCacheTable HTTPCacheLocks

def space (blockSize : Nat) (e : CacheEntry) : Int := entryDiskSpace e.size blockSize

def total (blockSize : Nat) (list : List CacheEntry) : Int := (list.map (space blockSize)).sum

/-- The table between operations. -/
structure Sound (t : Table) : Prop where
  shape : Shape t
  size : (t.currentSize : Int) = total t.blockSize (entries t)

/-- A size below 2^31 minus one block. -/
def Small (blockSize size : Nat) : Prop := size + blockSize < 2 ^ 31

structure Measured (t : Table) : Prop where
  block : 0 < t.blockSize
  small : ∀ e ∈ entries t, Small t.blockSize e.size
  size : (t.currentSize : Int) = total t.blockSize (entries t)

variable {blockSize : Nat}

theorem entryDiskSpace_small {size : Nat} (small : Small blockSize size) :
    entryDiskSpace size blockSize = ((size + blockSize) / blockSize * blockSize : Nat) := by
  unfold Small at small
  have low : size % 2 ^ 32 = size := Nat.mod_eq_of_lt (by omega)
  have sum : (size + blockSize) % 2 ^ 32 = size + blockSize := Nat.mod_eq_of_lt (by omega)
  have bound : (size + blockSize) / blockSize * blockSize ≤ size + blockSize :=
    Nat.div_mul_le_self _ _
  have product : (size + blockSize) / blockSize * blockSize % 2 ^ 32 =
      (size + blockSize) / blockSize * blockSize := Nat.mod_eq_of_lt (by omega)
  unfold entryDiskSpace
  rw [low, sum]
  dsimp only
  rw [product, if_pos (by omega)]

theorem space_range {e : CacheEntry} (small : Small blockSize e.size) :
    0 ≤ space blockSize e ∧ space blockSize e < 2 ^ 31 := by
  have bound : (e.size + blockSize) / blockSize * blockSize ≤ e.size + blockSize :=
    Nat.div_mul_le_self _ _
  have value : space blockSize e = _ := entryDiskSpace_small small
  unfold Small at small
  omega

theorem total_nonneg {list : List CacheEntry} (small : ∀ e ∈ list, Small blockSize e.size) :
    0 ≤ total blockSize list := by
  refine List.sum_nonneg fun x member => ?_
  rcases List.mem_map.mp member with ⟨e, inside, rfl⟩
  exact (space_range (small e inside)).1

theorem total_cons (e : CacheEntry) (list : List CacheEntry) :
    total blockSize (e :: list) = space blockSize e + total blockSize list := by
  simp [total]

theorem total_filter (doomed : CacheEntry → Bool) (list : List CacheEntry) :
    total blockSize list =
      total blockSize (list.filter doomed) + total blockSize (list.filter fun e => !doomed e) := by
  induction list with
  | nil => rfl
  | cons e rest ih =>
    cases gone : doomed e with
    | false =>
      rw [List.filter_cons_of_neg (by simp [gone]), List.filter_cons_of_pos (by simp [gone]),
        total_cons, total_cons, ih]
      ring
    | true =>
      rw [List.filter_cons_of_pos (by simp [gone]), List.filter_cons_of_neg (by simp [gone]),
        total_cons, total_cons, ih]
      ring

theorem release_exact {e : CacheEntry} {size : Nat} (small : Small blockSize e.size)
    (enough : space blockSize e ≤ size) :
    (release blockSize size e : Int) = size - space blockSize e := by
  have range := space_range small
  unfold release
  change ((if (space blockSize e % 2 ^ 32).toNat > size then 0
    else size - (space blockSize e % 2 ^ 32).toNat : Nat) : Int) = _
  have same : space blockSize e % 2 ^ 32 = space blockSize e :=
    Int.emod_eq_of_lt range.1 (by omega)
  rw [same, if_neg (by omega)]
  omega

theorem foldl_release {list : List CacheEntry} {size : Nat}
    (small : ∀ e ∈ list, Small blockSize e.size) (enough : total blockSize list ≤ size) :
    ((list.foldl (release blockSize) size : Nat) : Int) = size - total blockSize list := by
  induction list generalizing size with
  | nil => simp [total]
  | cons e rest ih =>
    have here := small e (List.mem_cons_self ..)
    have later : ∀ e ∈ rest, Small blockSize e.size := fun e member =>
      small e (List.mem_cons_of_mem _ member)
    have rest_nonneg := total_nonneg later
    rw [total_cons] at enough ⊢
    have first : (release blockSize size e : Int) = size - space blockSize e :=
      release_exact here (by omega)
    rw [List.foldl_cons, ih later (by omega), first]
    ring

/-! ## What the operations keep -/

theorem measured_without : Shrinks Measured := by
  intro t doomed measured _
  have parts : total t.blockSize (entries t) = _ := total_filter doomed (entries t)
  have gone : ∀ e ∈ (entries t).filter doomed, Small t.blockSize e.size := fun e member =>
    measured.small e (List.mem_filter.mp member).1
  have kept : ∀ e ∈ (entries t).filter (fun e => !doomed e), Small t.blockSize e.size :=
    fun e member => measured.small e (List.mem_filter.mp member).1
  have left := total_nonneg kept
  have whole := measured.size
  refine ⟨measured.block, ?_, ?_⟩
  · rw [entries_without]
    exact kept
  · rw [entries_without]
    change ((((entries t).filter doomed).foldl (release t.blockSize) t.currentSize : Nat) : Int) = _
    rw [foldl_release gone (by omega)]
    change _ = total t.blockSize _
    omega

theorem Measured.modify {t : Table} (measured : Measured t) {address : Nat}
    {change : CacheEntry → CacheEntry} {locked : List (File × Option Nat)}
    (same : ∀ e ∈ entries t, e.address = address → (change e).size = e.size) :
    Measured { t.modify address change with lockedEntries := locked } := by
  have sizes : ∀ e ∈ entries t, (changed address change e).size = e.size := by
    intro e member
    unfold changed
    split
    · next here => exact same e member here
    · rfl
  have list : entries { t.modify address change with lockedEntries := locked } =
      (entries t).map (changed address change) := entries_modify t
  refine ⟨measured.block, ?_, ?_⟩
  · intro e member
    rw [list] at member
    rcases List.mem_map.mp member with ⟨old, there, rfl⟩
    rw [sizes old there]
    exact measured.small old there
  · rw [list]
    have totals : total t.blockSize ((entries t).map (changed address change)) =
        total t.blockSize (entries t) := by
      unfold total
      rw [List.map_map]
      refine congrArg List.sum (List.map_congr_left fun e member => ?_)
      rw [Function.comp_apply, space, space, sizes e member]
    exact measured.size.trans totals.symm

theorem Measured.dumped {t : Table} (measured : Measured t) (newEntries : Int) :
    Measured { t with newEntries } := ⟨measured.block, measured.small, measured.size⟩

theorem Measured.withEntry {t : Table} {e : CacheEntry} (measured : Measured t) (shape : Shape t)
    (small : Small t.blockSize e.size)
    (bounded : total t.blockSize (entries t) + space t.blockSize e < 2 ^ 31) :
    Measured (withEntry e t) := by
  have perm := entries_withEntry shape e
  have range := space_range small
  have old := total_nonneg measured.small
  have whole := measured.size
  refine ⟨measured.block, ?_, ?_⟩
  · intro other member
    rcases List.mem_cons.mp (perm.mem_iff.mp member) with rfl | inside
    · exact small
    · exact measured.small other inside
  · have sum : total t.blockSize (entries (HTTPCacheTable.withEntry e t)) =
        space t.blockSize e + total t.blockSize (entries t) := by
      rw [← total_cons]
      exact (perm.map _).sum_eq
    change (((t.currentSize + space t.blockSize e) % 2 ^ 64).toNat : Int) = total t.blockSize _
    rw [sum, Int.emod_eq_of_lt (by omega) (by omega)]
    omega

/-! ## The operations -/

variable {config : Config} {next : Nat} {t : Table}

theorem peek_measured (inv : Inv next t) (measured : Measured t) (url : Chars) :
    Leaves Measured (peek url t) := by
  intro ends
  rw [peek_unchanged inv url ends]
  exact measured

/-- A change of an entry that leaves its size alone. -/
theorem Measured.rewrite (measured : Measured t) (inv : Inv next t) {e e' : CacheEntry}
    (there : e ∈ entries t) (size : e'.size = e.size) :
    Measured (t.modify e.address fun _ => e') := by
  have kept : Measured { t.modify e.address (fun _ => e') with lockedEntries := t.lockedEntries } :=
    measured.modify fun x inside here => by
      rw [size, inv.linked.eq_of_address inside there here]
  exact kept

theorem unlockRead_size (e : CacheEntry) : e.unlockReadResponse.size = e.size := by
  unfold CacheEntry.unlockReadResponse
  split <;> rfl

theorem renewed_size (requestTime : Int) (headers : List Chars) (now : Int) (e : CacheEntry) :
    (renewed config requestTime headers now e).size = e.size := by
  have kept : identity (renewed config requestTime headers now e) = identity e :=
    renewed_identity requestTime headers now e
  simp only [identity, Prod.mk.injEq] at kept
  exact kept.2.2.2.1

theorem updateEntry_measured (inv : Inv next t) (measured : Measured t) (url : Chars)
    (requestTime : Int) (headers : List Chars) (now : Int) (disk : Disk) :
    Leaves Measured (updateEntry config url requestTime headers now disk t) := by
  unfold updateEntry
  split
  · exact fun _ => measured
  · next e found =>
      have there := (find_some found).1
      split
      · exact fun ends => absurd rfl ends
      · next locked taken =>
          have shape := (lockWrite_right (inv.disciplined e there) taken).2.2
          have size : (renewed config requestTime headers now locked).size = e.size := by
            rw [renewed_size, shape]
          dsimp only
          split
          · refine fun _ => measured.rewrite inv there ?_
            rw [unlockRead_size]
            exact size
          · exact leaves_returned (measured.rewrite inv there size)

theorem getResponse_measured (inv : Inv next t) (measured : Measured t) (url : Chars) (file : File)
    (disk : Disk) : Leaves Measured (getResponse url file disk t) := by
  unfold getResponse
  split
  · exact leaves_returned measured
  · next e found =>
      have there := (find_some found).1
      rw [lockRead_right (inv.disciplined e there)]
      have held : Measured (t.modify e.address fun _ =>
          { e with responseLock := true, readers := e.readers + 1 }) :=
        measured.rewrite inv there rfl
      dsimp only
      split
      · exact fun _ => held
      · exact leaves_returned (held.modify fun _ _ _ => rfl)

theorem uncouple_measured (measured : Measured t) (file : File) :
    Leaves Measured (t.uncouple file) := by
  unfold Table.uncouple
  split
  · exact fun _ => ⟨measured.block, measured.small, measured.size⟩
  · exact fun _ => measured
  · next a _ =>
      have released : Measured { t.modify a CacheEntry.unlockReadResponse with
          lockedEntries := t.lockedEntries.filter (·.1 ≠ file) } :=
        measured.modify fun e _ _ => unlockRead_size e
      dsimp only
      split
      · exact fun _ => released
      · exact leaves_returned released

theorem storeResponse_measured (inv : Inv next t) (measured : Measured t) {url : Chars}
    (requestTime : Int) (headers : List Chars) {body : Nat} (cachename : Chars) (now : Int)
    (disk : Disk) (small : Small t.blockSize body)
    (bounded : total t.blockSize (entries t) + entryDiskSpace body t.blockSize < 2 ^ 31) :
    Leaves Measured
      (storeResponse config next url requestTime headers body cachename now disk t) := by
  unfold storeResponse
  dsimp only
  have kept : identity (renewed config requestTime headers now _) = _ :=
    renewed_identity requestTime headers now (CacheEntry.make next url)
  unfold renewed at kept
  simp only [identity, Prod.mk.injEq] at kept
  rcases kept with ⟨_, same_url, hash, _⟩
  split
  · exact leaves_returned measured
  · split
    · exact fun _ => measured
    · generalize calculateTime config.defaultExpiration requestTime now _ = e at *
      have own : e.url = url := same_url
      have home : ({ e with cachename, size := body } : CacheEntry).hash = getHash e.url := by
        rw [own]
        exact hash
      rw [addEntry_eq home]
      have added : Measured (withEntry { e with cachename, size := body } t) :=
        measured.withEntry inv.shape small bounded
      exact dumpIndex_leaves measured_without (fun t n measured => measured.dumped n) added now disk

theorem purge_measured (inv : Inv next t) (measured : Measured t) :
    Leaves Measured (purge t) := by
  rw [purge_eq inv]
  split
  · exact fun _ => measured
  · next unused =>
      refine leaves_returned (Measured.dumped (measured_without t _ measured fun e there _ => ?_) 0)
      have count := (inv.disciplined e there).readers
      rw [holders, not_not.mp unused] at count
      exact count

/-! ## Runs -/

/-- The body, and with it all of the cache, stays below 2^31 minus one block. -/
def Fits (t : Table) : Call → Prop
  | .cacheResponse url _ _ body _ _ _ =>
    Small t.blockSize body ∧
      total t.blockSize ((entries t).filter fun e => !decide (e.url = url)) +
        entryDiskSpace body t.blockSize + t.blockSize < 2 ^ 31
  | _ => True

def DiskWorks : Call → Prop
  | .cacheResponse _ _ _ _ _ _ disk => disk = .works
  | .updateResponse _ _ _ _ disk => disk = .works
  | .getCachedResponse _ _ disk => disk = .works
  | _ => True

structure Admissible (s : State) (c : Call) : Prop where
  possible : Possible s c
  disk : DiskWorks c
  fits : Fits s.table c

theorem careful_of_works {s : State} {c : Call} (works : DiskWorks c) : Careful s c := by
  cases c with
  | updateResponse url requestTime headers now disk =>
    cases works
    exact fun _ _ _ => ⟨rfl, rfl⟩
  | getCachedResponse url file disk =>
    cases works
    exact fun _ => ⟨rfl, rfl⟩
  | cacheResponse | getConditionalRequestHeaders | isUrlValid | releaseCachedResponse
  | performGarbageCollection | purgeCache => trivial

theorem perform_measured {c : Call} (inv : Inv next t) (measured : Measured t) (fits : Fits t c) :
    Leaves Measured (perform config next t c) := by
  cases c with
  | cacheResponse url requestTime headers body cachename now disk =>
    rw [perform]
    split
    · rcases removeEntry_cases inv url with stuck | ⟨removed, idle⟩
      · split
        · next left same =>
            rw [same] at stuck
            cases stuck
        · next exit left _ same =>
            rw [same] at stuck
            exact fun ends => absurd stuck ends
      · rw [removed]
        have gone : ∀ e ∈ entries t, decide (e.url = url) = true → e.readers = 0 :=
          fun e there same => idle e there (of_decide_eq_true same)
        refine storeResponse_measured (inv.without gone) (measured_without t _ measured gone)
          requestTime headers cachename now disk fits.1 ?_
        rw [entries_without]
        change total t.blockSize _ + entryDiskSpace body t.blockSize < 2 ^ 31
        have bound := fits.2
        omega
    · exact leaves_returned measured
  | updateResponse url requestTime headers now disk =>
    exact updateEntry_measured inv measured url requestTime headers now disk
  | getConditionalRequestHeaders url => exact peek_measured inv measured url
  | isUrlValid url =>
    rw [perform]
    split
    · exact leaves_returned measured
    · exact peek_measured inv measured url
  | getCachedResponse url file disk => exact getResponse_measured inv measured url file disk
  | releaseCachedResponse file => exact uncouple_measured measured file
  | performGarbageCollection now =>
    exact performGarbageCollection_leaves measured_without measured now
  | purgeCache => exact purge_measured inv measured

structure Kept (s : State) : Prop where
  ready : Ready s
  measured : s.hung = false → Measured s.table

theorem kept_step {s : State} {c : Call} (kept : Kept s) (admissible : Admissible s c) :
    Kept (s.step config c) := by
  have ready : Ready (s.step config c) :=
    step_ready kept.ready admissible.possible (.inr (careful_of_works admissible.disk))
  refine ⟨ready, ?_⟩
  unfold State.step
  split
  · exact kept.measured
  · next running =>
      have awake : s.hung = false := Bool.not_eq_true _ ▸ running
      have left : Leaves Measured (perform config s.nextAddress s.table c) :=
        perform_measured (kept.ready awake) (kept.measured awake) admissible.fits
      split
      · next t same => exact fun more => nomatch more
      · next exit t other same =>
          rw [same] at left
          exact fun _ => left other

theorem kept_empty (positive : 0 < blockSize) : Kept (State.empty blockSize) := by
  refine ⟨fun _ => inv_empty blockSize, fun _ => ⟨positive, ?_, ?_⟩⟩
  · intro e member
    change e ∈ entries (Table.empty blockSize) at member
    rw [entries_empty] at member
    cases member
  · change ((0 : Nat) : Int) = total blockSize (entries (Table.empty blockSize))
    rw [entries_empty]
    rfl

/-- After every operation that ends, each URL has at most one entry and it lies in the slot
of its hash code, no slot holds a null pointer, and the recorded size is the sum of the
entries' space on disk. -/
theorem table_sound (config : Config) (positive : 0 < blockSize) (calls : List Call)
    (admissible : AllSteps (State.step config) Admissible (State.empty blockSize) calls) :
    AfterEach (State.step config) (fun s => s.hung = false → Sound s.table)
      (State.empty blockSize) calls :=
  afterEach_of_kept (State.step config) (fun _ _ => kept_step)
    (fun _ kept awake => ⟨(kept.ready awake).shape, (kept.measured awake).size⟩)
    (kept_empty positive) admissible

theorem caching_fits : Fits (Table.empty 4096) caching := by
  refine ⟨by unfold Small; decide, ?_⟩
  rw [entries_empty]
  decide

theorem table_sound_cached :
    AfterEach (State.step quietly) (fun s => s.hung = false → Sound s.table) (State.empty 4096)
      [caching, .getCachedResponse page 1 .works, .purgeCache] :=
  table_sound quietly (by decide) _
    ⟨⟨trivial, rfl, caching_fits⟩, ⟨cached_unheld 1, rfl, trivial⟩, ⟨trivial, trivial, trivial⟩,
      trivial⟩

end Libdap.Guarantees.HTTPCacheSize
