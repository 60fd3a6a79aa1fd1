import Libdap.Source.DAPCache3
import Libdap.Library.Runs

/-!
# The accounts of the disk cache

The info file has the sum of the sizes of the files that were counted. `update_and_purge`
stores the sum over all files instead, and `purge_file` subtracts the size of any file: a
file that is not empty and not counted yet is counted twice by the one, and subtracted
without having been added by the other.
-/
namespace Libdap.Guarantees.DAPCache3
open Libdap.Library.Runs
open Libdap.Source.DAPCache3

/-- The sum of the sizes. -/
def total (files : List CacheEntry) : Nat := (files.map CacheEntry.size).sum

/-- The cache, and who created which file without having counted it yet. -/
structure Shared where
  state : State
  creating : List (Process × Chars)

def Shared.initial : Shared := ⟨State.initial, []⟩

variable (config : Config)

/-- A file that is removed is not counted any more. -/
def Shared.step (t : Shared) (a : Action) : Shared :=
  let state := t.state.step config a
  let creating := match a with
    | .createAndLock p file _ =>
      if (t.state.find file).isSome then t.creating else (p, file) :: t.creating
    | .updateCacheInfo p file => t.creating.erase (p, file)
    | _ => t.creating
  ⟨state, creating.filter fun c => (state.find c.2).isSome⟩

def uncounted (t : Shared) (file : Chars) : Bool := t.creating.any fun c => decide (c.2 = file)

/-- A file is created under the prefix, and written by its creator until it is counted. It
is counted once; counting a file that is gone raises. The info file is not purged. -/
def Admissible (t : Shared) : Action → Prop
  | .createAndLock _ file _ => config.cachePrefix.isPrefixOf file = true
  | .write p file _ _ => (p, file) ∈ t.creating
  | .updateCacheInfo p file => (p, file) ∈ t.creating ∨ t.state.find file = none
  | .purgeFile _ file => file ≠ config.infoName
  | _ => True

/-- `update_and_purge` and `purge_file` find no file that they take into account, not empty
and not counted yet; all files together have less than 2^64 bytes. -/
def Careful (t : Shared) : Action → Prop
  | .write _ file size time =>
    total (t.state.change file fun e => { e with size, time }).files < 2 ^ 64
  | .updateAndPurge _ _ => ∀ e ∈ t.state.files, uncounted t e.name = true → e.size = 0
  | .purgeFile _ file =>
    ∀ e ∈ t.state.files, e.name = file → uncounted t e.name = true → e.size = 0
  | _ => True

instance (t : Shared) : (a : Action) → Decidable (Admissible config t a)
  | .createAndLock _ file _ =>
    inferInstanceAs (Decidable (config.cachePrefix.isPrefixOf file = true))
  | .write p file _ _ => inferInstanceAs (Decidable ((p, file) ∈ t.creating))
  | .updateCacheInfo p file =>
    inferInstanceAs (Decidable ((p, file) ∈ t.creating ∨ t.state.find file = none))
  | .purgeFile _ file => inferInstanceAs (Decidable (file ≠ config.infoName))
  | .getReadLock .. | .access .. | .unlockAndClose .. | .updateAndPurge .. => .isTrue trivial

instance (t : Shared) : (a : Action) → Decidable (Careful t a)
  | .write _ file size time =>
    inferInstanceAs (Decidable
      (total (t.state.change file fun e => { e with size, time }).files < 2 ^ 64))
  | .updateAndPurge _ _ =>
    inferInstanceAs (Decidable (∀ e ∈ t.state.files, uncounted t e.name = true → e.size = 0))
  | .purgeFile _ file =>
    inferInstanceAs (Decidable
      (∀ e ∈ t.state.files, e.name = file → uncounted t e.name = true → e.size = 0))
  | .createAndLock .. | .updateCacheInfo .. | .getReadLock .. | .access .. |
    .unlockAndClose .. => .isTrue trivial

/-- While nobody is between creating a file and counting it. -/
def Accounted (t : Shared) : Prop := t.creating = [] → t.state.info = total t.state.files

/-- What `update_and_purge` may remove. -/
def free (s : State) (p : Process) (newFile : Chars) (e : CacheEntry) : Bool :=
  decide (e.name ≠ newFile) && !s.conflicts p e.name .exclusive

def without (removed files : List CacheEntry) : List CacheEntry :=
  files.filter fun e => !removed.any fun r => decide (r.name = e.name)

/-- The files are tried one after the other, oldest access first, each of them as long as
the total is above the target; of those tried the free ones are removed, and no others.
Nothing is tried unless the cache is too big, and then the target is reached or all files
are tried. -/
def PurgesRight (s s' : State) (p : Process) (newFile : Chars) : Prop :=
  ∃ tried untried, (tried ++ untried).Perm s.files ∧
    (tried ++ untried).Pairwise (fun e1 e2 => e1.time ≤ e2.time) ∧
    s'.files = without (tried.filter (free s p newFile)) s.files ∧
    (∀ earlier e later, tried = earlier ++ e :: later →
      config.targetSize < total (without (earlier.filter (free s p newFile)) s.files)) ∧
    (tried ≠ [] → config.maxCacheSize < total s.files) ∧
    (config.maxCacheSize < total s.files →
      untried = [] ∨ total s'.files ≤ config.targetSize)

/-- The size stored by `purge_file` has not wrapped. -/
def NoWrap (s : State) (file : Chars) : Prop := ∀ e, s.find file = some e → e.size ≤ s.info

def StepRight (t : Shared) : Action → Prop
  | .updateAndPurge p newFile =>
    PurgesRight config t.state (t.state.step config (.updateAndPurge p newFile)) p newFile
  | .purgeFile _ file => NoWrap t.state file
  | _ => True

/-! ## Sums over files with different names -/

theorem total_cons (e : CacheEntry) (files : List CacheEntry) :
    total (e :: files) = e.size + total files := by
  simp [total]

theorem total_perm {files files' : List CacheEntry} (perm : files.Perm files') :
    total files = total files' :=
  (perm.map CacheEntry.size).sum_eq

theorem total_filter (p : CacheEntry → Bool) (files : List CacheEntry) :
    total (files.filter p) + total (files.filter fun e => !p e) = total files := by
  induction files with
  | nil => rfl
  | cons e rest ih =>
    cases keep : p e with
    | true =>
      rw [List.filter_cons_of_pos keep, List.filter_cons_of_neg (by simp [keep]), total_cons,
        total_cons]
      omega
    | false =>
      rw [List.filter_cons_of_neg (by simp [keep]), List.filter_cons_of_pos (by simp [keep]),
        total_cons, total_cons]
      omega

def Distinct (files : List CacheEntry) : Prop := (files.map CacheEntry.name).Nodup

theorem find_some {s : State} {file : Chars} {e : CacheEntry} (found : s.find file = some e) :
    e ∈ s.files ∧ e.name = file := by
  have name := List.find?_some found
  exact ⟨List.mem_of_find?_eq_some found, of_decide_eq_true name⟩

theorem find_none {s : State} {file : Chars} :
    s.find file = none ↔ ∀ e ∈ s.files, e.name ≠ file := by
  unfold State.find
  rw [List.find?_eq_none]
  simp

theorem find_isSome {s : State} {file : Chars} :
    (s.find file).isSome = true ↔ ∃ e ∈ s.files, e.name = file := by
  unfold State.find
  rw [List.find?_isSome]
  simp

/-- The file of a name, and the others. -/
theorem split_file {files : List CacheEntry} (distinct : Distinct files) {e : CacheEntry}
    (member : e ∈ files) :
    files.Perm (e :: files.filter fun x => !decide (x.name = e.name)) := by
  induction files with
  | nil => cases member
  | cons x rest ih =>
    obtain ⟨fresh, distinct⟩ := List.nodup_cons.mp distinct
    have others : ∀ y ∈ rest, y.name ≠ x.name := fun y inside same =>
      fresh (List.mem_map.mpr ⟨y, inside, same⟩)
    rcases List.mem_cons.mp member with rfl | inside
    · rw [List.filter_cons_of_neg (by simp)]
      have all : rest.filter (fun y => !decide (y.name = e.name)) = rest :=
        List.filter_eq_self.mpr fun y inside => by simpa using others y inside
      rw [all]
    · have different : x.name ≠ e.name := fun same => others e inside same.symm
      rw [List.filter_cons_of_pos (by simpa using different)]
      exact ((ih distinct inside).cons x).trans (.swap _ _ _)

/-! ## The invariant -/

def counted (creating : List (Process × Chars)) (e : CacheEntry) : Bool :=
  !creating.any fun c => decide (c.2 = e.name)

structure Inv (t : Shared) : Prop where
  distinct : Distinct t.state.files
  cached : ∀ e ∈ t.state.files, config.cachePrefix.isPrefixOf e.name = true
  once : (t.creating.map Prod.snd).Nodup
  there : ∀ c ∈ t.creating, (t.state.find c.2).isSome = true
  bound : total t.state.files < 2 ^ 64
  info : t.state.info = total (t.state.files.filter (counted t.creating))

variable {config}

theorem inv_initial : Inv config Shared.initial where
  distinct := List.nodup_nil
  cached _ member := nomatch member
  once := List.nodup_nil
  there _ member := nomatch member
  bound := by decide
  info := rfl

/-- Files that are there are counted or not, whether or not those that are gone are left
out. -/
theorem counted_filter {s : State} {creating : List (Process × Chars)} :
    s.files.filter (counted (creating.filter fun c => (s.find c.2).isSome)) =
      s.files.filter (counted creating) := by
  refine List.filter_congr fun e member => ?_
  unfold counted
  congr 1
  rw [List.any_filter]
  refine List.any_congr rfl fun c => ?_
  by_cases same : c.2 = e.name
  · rw [find_isSome.mpr ⟨e, member, same.symm⟩, Bool.true_and]
  · rw [decide_eq_false same, Bool.and_false]

/-- What is left to show of a step. -/
theorem Inv.of_creating {s : State} {creating : List (Process × Chars)}
    (distinct : Distinct s.files)
    (cached : ∀ e ∈ s.files, config.cachePrefix.isPrefixOf e.name = true)
    (once : (creating.map Prod.snd).Nodup) (bound : total s.files < 2 ^ 64)
    (info : s.info = total (s.files.filter (counted creating))) :
    Inv config ⟨s, creating.filter fun c => (s.find c.2).isSome⟩ where
  distinct := distinct
  cached := cached
  once := once.sublist (List.filter_sublist.map _)
  there c member := (List.mem_filter.mp member).2
  bound := bound
  info := by
    rw [info]
    exact (congrArg total counted_filter).symm

/-- Counting nothing, and all else as it was. -/
theorem Inv.same {t : Shared} (inv : Inv config t) {s : State} (files : s.files = t.state.files)
    (info : s.info = t.state.info) :
    Inv config ⟨s, t.creating.filter fun c => (s.find c.2).isSome⟩ := by
  refine .of_creating ?_ ?_ inv.once ?_ ?_
  · rw [files]
    exact inv.distinct
  · rw [files]
    exact inv.cached
  · rw [files]
    exact inv.bound
  · rw [files, info]
    exact inv.info

theorem change_names {files : List CacheEntry} {file : Chars} {f : CacheEntry → CacheEntry}
    (names : ∀ e, (f e).name = e.name) :
    (files.map fun e => if e.name = file then f e else e).map CacheEntry.name =
      files.map CacheEntry.name := by
  rw [List.map_map]
  refine List.map_congr_left fun e _ => ?_
  change (if e.name = file then f e else e).name = e.name
  split
  · exact names e
  · rfl

/-- A change of a file that is not counted, or not of its size. -/
theorem change_counted {files : List CacheEntry} {file : Chars} {f : CacheEntry → CacheEntry}
    {creating : List (Process × Chars)} (names : ∀ e, (f e).name = e.name)
    (sizes : ∀ e, e.name = file → counted creating e = true → (f e).size = e.size) :
    total ((files.map fun e => if e.name = file then f e else e).filter (counted creating)) =
      total (files.filter (counted creating)) := by
  induction files with
  | nil => rfl
  | cons e rest ih =>
    have name : (if e.name = file then f e else e).name = e.name := by
      split
      · exact names e
      · rfl
    have status : counted creating (if e.name = file then f e else e) = counted creating e := by
      unfold counted
      rw [name]
    rw [List.map_cons]
    cases keep : counted creating e with
    | false =>
      rw [List.filter_cons_of_neg (by rw [status, keep]; decide),
        List.filter_cons_of_neg (by rw [keep]; decide), ih]
    | true =>
      rw [List.filter_cons_of_pos (by rw [status, keep]), List.filter_cons_of_pos keep,
        total_cons, total_cons, ih]
      congr 1
      split
      · rename_i same
        exact sizes e same keep
      · rfl

theorem change_inv {t : Shared} (inv : Inv config t) {file : Chars} {f : CacheEntry → CacheEntry}
    (names : ∀ e, (f e).name = e.name)
    (sizes : ∀ e, e.name = file → counted t.creating e = true → (f e).size = e.size)
    (bound : total (t.state.change file f).files < 2 ^ 64) :
    Inv config ⟨t.state.change file f,
      t.creating.filter fun c => ((t.state.change file f).find c.2).isSome⟩ := by
  have same : (t.state.change file f).files.map CacheEntry.name =
      t.state.files.map CacheEntry.name := change_names names
  refine .of_creating ?_ ?_ inv.once bound ?_
  · unfold Distinct
    rw [same]
    exact inv.distinct
  · intro e member
    have name : e.name ∈ t.state.files.map CacheEntry.name := by
      rw [← same]
      exact List.mem_map_of_mem member
    obtain ⟨e', inside, equal⟩ := List.mem_map.mp name
    rw [← equal]
    exact inv.cached e' inside
  · exact inv.info.trans (change_counted names sizes).symm

theorem create_inv {t : Shared} (inv : Inv config t) {p : Process} {file : Chars} {time : Int}
    (named : config.cachePrefix.isPrefixOf file = true) :
    Inv config (t.step config (.createAndLock p file time)) := by
  cases found : t.state.find file with
  | some e =>
    have step : t.step config (.createAndLock p file time) =
        ⟨t.state, t.creating.filter fun c => (t.state.find c.2).isSome⟩ := by
      simp only [Shared.step, State.step, State.createAndLock, found, Option.isSome_some, if_pos]
    rw [step]
    exact inv.same rfl rfl
  | none =>
    have absent := find_none.mp found
    have step : (t.step config (.createAndLock p file time)) =
        ⟨t.state.createAndLock p file time, ((p, file) :: t.creating).filter fun c =>
          ((t.state.createAndLock p file time).find c.2).isSome⟩ := by
      simp only [Shared.step, State.step, found, Option.isSome_none, Bool.false_eq_true, if_false]
    have files : (t.state.createAndLock p file time).files =
        t.state.files ++ [⟨file, 0, time⟩] := by
      simp only [State.createAndLock, found]
      rfl
    have info : (t.state.createAndLock p file time).info = t.state.info := by
      simp only [State.createAndLock, found]
      rfl
    have sum : total (t.state.files ++ [⟨file, 0, time⟩]) = total t.state.files := by
      simp [total]
    rw [step]
    refine .of_creating ?_ ?_ ?_ ?_ ?_
    · rw [files]
      unfold Distinct
      rw [List.map_append, List.nodup_append]
      refine ⟨inv.distinct, List.nodup_singleton _, ?_⟩
      intro name inside name' last
      obtain ⟨e, member, rfl⟩ := List.mem_map.mp inside
      obtain rfl := List.mem_singleton.mp last
      exact absent e member
    · rw [files]
      intro e member
      rcases List.mem_append.mp member with old | new
      · exact inv.cached e old
      · obtain rfl := List.mem_singleton.mp new
        exact named
    · rw [List.map_cons, List.nodup_cons]
      refine ⟨fun member => ?_, inv.once⟩
      obtain ⟨c, inside, same⟩ := List.mem_map.mp member
      have there := inv.there c inside
      rw [same, found] at there
      cases there
    · rw [files, sum]
      exact inv.bound
    · have old : t.state.files.filter (counted ((p, file) :: t.creating)) =
          t.state.files.filter (counted t.creating) := by
        refine List.filter_congr fun e member => ?_
        unfold counted
        rw [List.any_cons, decide_eq_false (Ne.symm (absent e member)), Bool.false_or]
      have new : counted ((p, file) :: t.creating) ⟨file, 0, time⟩ = false := by
        simp [counted]
      rw [files, info, List.filter_append, old,
        List.filter_cons_of_neg (by rw [new]; decide), List.filter_nil, List.append_nil]
      exact inv.info

theorem counted_erase {creating : List (Process × Chars)} {p : Process} {file : Chars}
    {e : CacheEntry} (other : e.name ≠ file) :
    counted (creating.erase (p, file)) e = counted creating e := by
  unfold counted
  congr 1
  rw [Bool.eq_iff_iff, List.any_eq_true, List.any_eq_true]
  constructor
  · rintro ⟨c, member, same⟩
    exact ⟨c, List.mem_of_mem_erase member, same⟩
  · rintro ⟨c, member, same⟩
    refine ⟨c, (List.mem_erase_of_ne ?_).mpr member, same⟩
    rintro rfl
    exact other (of_decide_eq_true same).symm

theorem counted_erased {creating : List (Process × Chars)} {p : Process} {e : CacheEntry}
    (once : (creating.map Prod.snd).Nodup) (created : (p, e.name) ∈ creating) :
    counted (creating.erase (p, e.name)) e = true := by
  have perm := (List.perm_cons_erase created).map Prod.snd
  obtain ⟨fresh, -⟩ := List.nodup_cons.mp (perm.nodup_iff.mp once)
  unfold counted
  rw [Bool.not_eq_true', List.any_eq_false]
  intro c member same
  exact fresh (List.mem_map.mpr ⟨c, member, of_decide_eq_true same⟩)

theorem counted_creating {creating : List (Process × Chars)} {p : Process} {e : CacheEntry}
    (created : (p, e.name) ∈ creating) : counted creating e = false := by
  unfold counted
  rw [List.any_eq_true.mpr ⟨_, created, decide_eq_true rfl⟩]
  rfl

/-- The total of the counted files, with one of them apart. -/
theorem total_counted {files : List CacheEntry} (distinct : Distinct files) {e : CacheEntry}
    (member : e ∈ files) (p : CacheEntry → Bool) :
    total (files.filter p) =
      (if p e then e.size else 0) +
        total ((files.filter fun x => !decide (x.name = e.name)).filter p) := by
  rw [total_perm ((split_file distinct member).filter p), List.filter_cons]
  split
  · exact total_cons _ _
  · exact (Nat.zero_add _).symm

theorem count_inv {t : Shared} (inv : Inv config t) {p : Process} {file : Chars}
    (created : (p, file) ∈ t.creating) :
    Inv config (t.step config (.updateCacheInfo p file)) := by
  obtain ⟨e, found⟩ := Option.isSome_iff_exists.mp (inv.there _ created)
  obtain ⟨member, rfl⟩ := find_some found
  have step : t.step config (.updateCacheInfo p e.name) =
      ⟨{ t.state with info := (t.state.info + e.size) % 2 ^ 64 },
        (t.creating.erase (p, e.name)).filter fun c =>
          (({ t.state with info := (t.state.info + e.size) % 2 ^ 64 } : State).find
            c.2).isSome⟩ := by
    simp only [Shared.step, State.step, State.updateCacheInfo, found]
  rw [step]
  refine .of_creating inv.distinct inv.cached
    (inv.once.sublist ((List.erase_sublist ..).map _)) inv.bound ?_
  change (t.state.info + e.size) % 2 ^ 64 = _
  have before := total_counted inv.distinct member (counted t.creating)
  have after := total_counted inv.distinct member (counted (t.creating.erase (p, e.name)))
  have others : (t.state.files.filter fun x => !decide (x.name = e.name)).filter
        (counted (t.creating.erase (p, e.name))) =
      (t.state.files.filter fun x => !decide (x.name = e.name)).filter (counted t.creating) := by
    refine List.filter_congr fun x inside => counted_erase ?_
    simpa using (List.mem_filter.mp inside).2
  rw [counted_creating created, if_neg (by decide), Nat.zero_add] at before
  rw [counted_erased inv.once created, if_pos rfl, others, ← before, ← inv.info] at after
  have small := total_filter (counted (t.creating.erase (p, e.name))) t.state.files
  have bound := inv.bound
  rw [after]
  rw [Nat.add_comm]
  exact Nat.mod_eq_of_lt (by omega)

/-- Counting a file that is gone raises. -/
theorem count_gone {t : Shared} (inv : Inv config t) {p : Process} {file : Chars}
    (gone : t.state.find file = none) :
    Inv config (t.step config (.updateCacheInfo p file)) := by
  have nobody : (p, file) ∉ t.creating := fun member => by
    have there := inv.there _ member
    rw [gone] at there
    cases there
  have step : t.step config (.updateCacheInfo p file) =
      ⟨t.state, t.creating.filter fun c => (t.state.find c.2).isSome⟩ := by
    simp only [Shared.step, State.step, State.updateCacheInfo, gone, List.erase_of_not_mem nobody]
  rw [step]
  exact inv.same rfl rfl

/-! ## purge_file -/

theorem minus_eq {a b : Nat} (le : b ≤ a) (bound : a < 2 ^ 64) : minus a b = a - b := by
  unfold minus
  omega

theorem Inv.info_lt {t : Shared} (inv : Inv config t) : t.state.info < 2 ^ 64 := by
  have parts := total_filter (counted t.creating) t.state.files
  have bound := inv.bound
  rw [inv.info]
  omega

/-- What the info file has, with one of the files apart. -/
theorem Inv.info_apart {t : Shared} (inv : Inv config t) {e : CacheEntry}
    (member : e ∈ t.state.files) (empty : uncounted t e.name = true → e.size = 0) :
    t.state.info = e.size +
      total ((t.state.files.filter fun x => !decide (x.name = e.name)).filter
        (counted t.creating)) := by
  rw [inv.info, total_counted inv.distinct member]
  congr 1
  cases status : uncounted t e.name with
  | true => rw [empty status, ite_self]
  | false =>
    have here : counted t.creating e = true := congrArg Bool.not status
    rw [if_pos here]

theorem purgeFile_noWrap {t : Shared} (inv : Inv config t) {p : Process} {file : Chars}
    (careful : Careful t (.purgeFile p file)) : NoWrap t.state file := by
  intro e found
  obtain ⟨member, rfl⟩ := find_some found
  rw [inv.info_apart member (careful e member rfl)]
  exact Nat.le_add_right _ _

theorem total_filter_le (p : CacheEntry → Bool) (files : List CacheEntry) :
    total (files.filter p) ≤ total files := by
  have parts := total_filter p files
  omega

theorem Distinct.filter {files : List CacheEntry} (distinct : Distinct files)
    (p : CacheEntry → Bool) : Distinct (files.filter p) :=
  distinct.sublist (List.filter_sublist.map _)

theorem purgeFile_inv {t : Shared} (inv : Inv config t) {p : Process} {file : Chars}
    (careful : Careful t (.purgeFile p file)) :
    Inv config (t.step config (.purgeFile p file)) := by
  have step : t.step config (.purgeFile p file) = ⟨t.state.purgeFile p file,
      t.creating.filter fun c => ((t.state.purgeFile p file).find c.2).isSome⟩ := rfl
  rw [step]
  cases found : t.state.find file with
  | none =>
    have same : t.state.purgeFile p file = t.state := by
      simp only [State.purgeFile, found]
    rw [same]
    exact inv.same rfl rfl
  | some e =>
    obtain ⟨member, rfl⟩ := find_some found
    have apart := inv.info_apart member (careful e member rfl)
    cases waits : t.state.conflicts p e.name .exclusive with
    | true =>
      have same : t.state.purgeFile p e.name = t.state := by
        simp only [State.purgeFile, found, waits, if_pos]
      rw [same]
      exact inv.same rfl rfl
    | false =>
      have files : (t.state.purgeFile p e.name).files =
          t.state.files.filter fun x => !decide (x.name = e.name) := by
        simp only [State.purgeFile, found, waits, Bool.false_eq_true, if_false]
        rfl
      have info : (t.state.purgeFile p e.name).info = minus t.state.info e.size := by
        simp only [State.purgeFile, found, waits, Bool.false_eq_true, if_false]
      refine .of_creating ?_ ?_ inv.once ?_ ?_
      · rw [files]
        exact inv.distinct.filter _
      · rw [files]
        exact fun x inside => inv.cached x (List.mem_of_mem_filter inside)
      · rw [files]
        exact (total_filter_le _ _).trans_lt inv.bound
      · rw [files, info, minus_eq (by omega) inv.info_lt, apart]
        exact Nat.add_sub_cancel_left _ _

/-! ## update_and_purge -/

theorem without_nil (files : List CacheEntry) : without [] files = files :=
  List.filter_eq_self.mpr fun _ _ => rfl

theorem without_cons (e : CacheEntry) (removed files : List CacheEntry) :
    without (e :: removed) files =
      without removed (files.filter fun x => !decide (x.name = e.name)) := by
  unfold without
  rw [List.filter_filter]
  refine List.filter_congr fun x _ => ?_
  rw [List.any_cons, Bool.not_or, Bool.and_comm, show decide (e.name = x.name) =
    decide (x.name = e.name) from decide_eq_decide.mpr eq_comm]

/-- What a process holds is nothing it has to wait for. -/
theorem conflicts_unlock (s : State) (p : Process) (file other : Chars) (kind : LockKind) :
    (s.unlock p file).conflicts p other kind = s.conflicts p other kind := by
  unfold State.conflicts State.unlock
  dsimp only
  rw [List.any_filter]
  refine List.any_congr rfl fun l => ?_
  by_cases own : l.1 = p
  · simp [own]
  · simp [own]

theorem conflicts_lock (s : State) (p : Process) (file other : Chars) (got kind : LockKind) :
    (s.lock p file got).conflicts p other kind = s.conflicts p other kind := by
  rw [← conflicts_unlock s p file other kind]
  unfold State.conflicts State.lock
  dsimp only
  rw [List.any_cons, decide_eq_false (not_not.mpr rfl), Bool.false_and, Bool.false_and,
    Bool.false_or]

theorem free_congr {s s' : State} {p : Process} {newFile : Chars}
    (same : ∀ file, s'.conflicts p file .exclusive = s.conflicts p file .exclusive) :
    free s' p newFile = free s p newFile := by
  funext e
  unfold free
  rw [same]

/-- Files are tried in order while the total is above the target; the free ones go. -/
structure Purged (target : Nat) (p : Process) (newFile : Chars) (entries : List CacheEntry)
    (s : State) (result : State × Nat) (tried untried : List CacheEntry) : Prop where
  split : tried ++ untried = entries
  files : result.1.files = without (tried.filter (free s p newFile)) s.files
  size : result.2 = total result.1.files
  above : ∀ earlier e later, tried = earlier ++ e :: later →
    target < total (without (earlier.filter (free s p newFile)) s.files)
  done : untried = [] ∨ result.2 ≤ target

/-- A file that is tried and stays. -/
theorem Purged.kept {target : Nat} {p : Process} {newFile : Chars} {e : CacheEntry}
    {rest tried untried : List CacheEntry} {s s' : State} {result : State × Nat}
    (purged : Purged target p newFile rest s' result tried untried) (files : s'.files = s.files)
    (same : free s' p newFile = free s p newFile) (stays : free s p newFile e = false)
    (big : target < total s.files) :
    Purged target p newFile (e :: rest) s result (e :: tried) untried where
  split := congrArg (e :: ·) purged.split
  files := by
    rw [List.filter_cons_of_neg (by rw [stays]; decide), purged.files, same, files]
  size := purged.size
  above earlier first later split := by
    cases earlier with
    | nil =>
      rw [List.filter_nil, without_nil]
      exact big
    | cons x earlier =>
      obtain ⟨rfl, others⟩ := List.cons.inj split
      rw [List.filter_cons_of_neg (by rw [stays]; decide)]
      have above := purged.above earlier first later others
      rwa [same, files] at above
  done := purged.done

/-- A file that is tried and goes. -/
theorem Purged.removed {target : Nat} {p : Process} {newFile : Chars} {e : CacheEntry}
    {rest tried untried : List CacheEntry} {s s' : State} {result : State × Nat}
    (purged : Purged target p newFile rest s' result tried untried)
    (files : s'.files = s.files.filter fun x => !decide (x.name = e.name))
    (same : free s' p newFile = free s p newFile) (goes : free s p newFile e = true)
    (big : target < total s.files) :
    Purged target p newFile (e :: rest) s result (e :: tried) untried where
  split := congrArg (e :: ·) purged.split
  files := by
    rw [List.filter_cons_of_pos goes, without_cons, purged.files, same, files]
  size := purged.size
  above earlier first later split := by
    cases earlier with
    | nil =>
      rw [List.filter_nil, without_nil]
      exact big
    | cons x earlier =>
      obtain ⟨rfl, others⟩ := List.cons.inj split
      rw [List.filter_cons_of_pos goes, without_cons]
      have above := purged.above earlier first later others
      rwa [same, files] at above
  done := purged.done

theorem purgeLoop_purged (target : Nat) (p : Process) (newFile : Chars) :
    ∀ (entries : List CacheEntry) (s : State) (computed : Nat), Distinct s.files →
      Distinct entries → (∀ e ∈ entries, e ∈ s.files) → computed = total s.files →
      computed < 2 ^ 64 → ∃ tried untried,
        Purged target p newFile entries s (purgeLoop target p newFile entries s computed)
          tried untried := by
  intro entries
  induction entries with
  | nil =>
    intro s computed _ _ _ size _
    exact ⟨[], [], rfl, (without_nil _).symm, size, (fun _ _ _ split => by simp at split),
      .inl rfl⟩
  | cons e rest ih =>
    intro s computed distinct once there size bound
    obtain ⟨fresh, onceRest⟩ := List.nodup_cons.mp once
    have member := there e List.mem_cons_self
    have thereRest : ∀ x ∈ rest, x ∈ s.files := fun x inside =>
      there x (List.mem_cons_of_mem _ inside)
    by_cases small : computed ≤ target
    · have result : purgeLoop target p newFile (e :: rest) s computed = (s, computed) := by
        rw [purgeLoop, if_pos small]
      rw [result]
      exact ⟨[], e :: rest, rfl, (without_nil _).symm, size,
        (fun _ _ _ split => by simp at split), .inr small⟩
    have big : target < total s.files := by omega
    by_cases new : e.name = newFile
    · have result : purgeLoop target p newFile (e :: rest) s computed =
          purgeLoop target p newFile rest s computed := by
        rw [purgeLoop, if_neg small, if_pos new]
      obtain ⟨tried, untried, purged⟩ := ih s computed distinct onceRest thereRest size bound
      rw [result]
      refine ⟨e :: tried, untried, purged.kept rfl rfl ?_ big⟩
      simp [free, new]
    · obtain ⟨found, present⟩ :=
        Option.isSome_iff_exists.mp (find_isSome.mpr ⟨e, member, rfl⟩)
      cases waits : s.conflicts p e.name .exclusive with
      | true =>
        have result : purgeLoop target p newFile (e :: rest) s computed =
            purgeLoop target p newFile rest (s.unlock p e.name) computed := by
          rw [purgeLoop, if_neg small, if_neg new]
          simp only [State.getExclusiveLockNB, present, waits, if_pos]
        obtain ⟨tried, untried, purged⟩ :=
          ih (s.unlock p e.name) computed distinct onceRest thereRest size bound
        rw [result]
        refine ⟨e :: tried, untried, purged.kept rfl
          (free_congr fun file => conflicts_unlock ..) ?_ big⟩
        simp [free, waits]
      | false =>
        have result : purgeLoop target p newFile (e :: rest) s computed =
            purgeLoop target p newFile rest
              (((s.lock p e.name .exclusive).unlink e.name).unlock p e.name)
              (minus computed e.size) := by
          rw [purgeLoop, if_neg small, if_neg new]
          simp only [State.getExclusiveLockNB, present, waits, Bool.false_eq_true, if_false]
        have apart : total s.files =
            e.size + total (s.files.filter fun x => !decide (x.name = e.name)) := by
          rw [total_perm (split_file distinct member), total_cons]
        have left : minus computed e.size =
            total (s.files.filter fun x => !decide (x.name = e.name)) := by
          rw [minus_eq (by omega) bound]
          omega
        obtain ⟨tried, untried, purged⟩ :=
          ih (((s.lock p e.name .exclusive).unlink e.name).unlock p e.name)
            (minus computed e.size) (distinct.filter _) onceRest
            (fun x inside => List.mem_filter.mpr ⟨thereRest x inside, by
              have other : x.name ≠ e.name := fun same =>
                fresh (List.mem_map.mpr ⟨x, inside, same⟩)
              simpa using other⟩)
            left (by omega)
        rw [result]
        refine ⟨e :: tried, untried, purged.removed rfl (free_congr fun file => ?_) ?_ big⟩
        · rw [conflicts_unlock]
          exact conflicts_lock s p e.name file .exclusive .exclusive
        · simp [free, new, waits]

theorem collect_sorted (config : Config) (s : State) :
    (s.collect config).1.Pairwise fun e1 e2 => e1.time ≤ e2.time := by
  have total : Std.Total fun e1 e2 : CacheEntry => e1.time ≤ e2.time :=
    ⟨fun _ _ => le_total _ _⟩
  have trans : IsTrans CacheEntry fun e1 e2 => e1.time ≤ e2.time :=
    ⟨fun _ _ _ first second => first.trans second⟩
  exact List.pairwise_insertionSort _ _

section

variable {t : Shared} (inv : Inv config t)
  (apart : config.cachePrefix.isPrefixOf config.infoName = false)

include inv apart

/-- The info file does not have the prefix, and all others do. -/
theorem collect_files :
    (t.state.directory config).filter (fun e => config.cachePrefix.isPrefixOf e.name) =
      t.state.files := by
  unfold State.directory
  rw [List.filter_cons_of_neg (by rw [apart]; decide)]
  exact List.filter_eq_self.mpr inv.cached

theorem collect_perm : (t.state.collect config).1.Perm t.state.files := by
  unfold State.collect
  dsimp only
  rw [collect_files inv apart]
  exact List.perm_insertionSort _ _

theorem collect_size : (t.state.collect config).2 = total t.state.files := by
  unfold State.collect
  dsimp only
  rw [collect_files inv apart]
  exact Nat.mod_eq_of_lt inv.bound

theorem collect_purged (p : Process) (newFile : Chars) : ∃ tried untried,
    Purged config.targetSize p newFile (t.state.collect config).1 t.state
      (purgeLoop config.targetSize p newFile (t.state.collect config).1 t.state
        (t.state.collect config).2) tried untried := by
  have perm := collect_perm inv apart
  have size := collect_size inv apart
  refine purgeLoop_purged _ _ _ _ _ _ inv.distinct ?_ (fun e member => perm.mem_iff.mp member) size
    (by rw [size]; exact inv.bound)
  exact (perm.map CacheEntry.name).nodup_iff.mpr inv.distinct

/-- The files left are some of those there were, and the info file gets their total. -/
theorem updateAndPurge_left (p : Process) (newFile : Chars) :
    (∃ removed, (t.state.updateAndPurge config p newFile).files =
      without removed t.state.files) ∧
    (t.state.updateAndPurge config p newFile).info =
      total (t.state.updateAndPurge config p newFile).files := by
  unfold State.updateAndPurge
  dsimp only
  split
  · obtain ⟨tried, untried, purged⟩ := collect_purged inv apart p newFile
    exact ⟨⟨_, purged.files⟩, purged.size⟩
  · exact ⟨⟨[], (without_nil _).symm⟩, collect_size inv apart⟩

theorem updateAndPurge_right (p : Process) (newFile : Chars) :
    PurgesRight config t.state (t.state.updateAndPurge config p newFile) p newFile := by
  have perm := collect_perm inv apart
  have size := collect_size inv apart
  have sorted := collect_sorted config t.state
  by_cases big : (t.state.collect config).2 > config.maxCacheSize
  · obtain ⟨tried, untried, purged⟩ := collect_purged inv apart p newFile
    have result : (t.state.updateAndPurge config p newFile).files =
        (purgeLoop config.targetSize p newFile (t.state.collect config).1 t.state
          (t.state.collect config).2).1.files := by
      unfold State.updateAndPurge
      dsimp only
      rw [if_pos big]
    have large : config.maxCacheSize < total t.state.files := size ▸ big
    refine ⟨tried, untried, ?_, ?_, ?_, purged.above, fun _ => large, fun _ => ?_⟩
    · rw [purged.split]
      exact perm
    · rw [purged.split]
      exact sorted
    · rw [result]
      exact purged.files
    · rw [result, ← purged.size]
      exact purged.done
  · have result : (t.state.updateAndPurge config p newFile).files = t.state.files := by
      unfold State.updateAndPurge
      dsimp only
      rw [if_neg big]
    have small : ¬ config.maxCacheSize < total t.state.files := size ▸ big
    refine ⟨[], (t.state.collect config).1, perm, sorted, ?_, ?_, (absurd rfl ·),
      (absurd · small)⟩
    · rw [result]
      exact (without_nil _).symm
    · intro earlier e later split
      simp at split

theorem updateAndPurge_inv {p : Process} {newFile : Chars}
    (careful : Careful t (.updateAndPurge p newFile)) :
    Inv config (t.step config (.updateAndPurge p newFile)) := by
  obtain ⟨⟨removed, files⟩, info⟩ := updateAndPurge_left inv apart p newFile
  have step : t.step config (.updateAndPurge p newFile) =
      ⟨t.state.updateAndPurge config p newFile, t.creating.filter fun c =>
        ((t.state.updateAndPurge config p newFile).find c.2).isSome⟩ := rfl
  rw [step]
  have old : ∀ e ∈ (t.state.updateAndPurge config p newFile).files, e ∈ t.state.files := by
    intro e member
    rw [files] at member
    exact List.mem_of_mem_filter member
  refine .of_creating ?_ (fun e member => inv.cached e (old e member)) inv.once ?_ ?_
  · rw [files]
    exact inv.distinct.filter _
  · rw [files]
    exact (total_filter_le _ _).trans_lt inv.bound
  -- What is not counted is empty.
  · have parts := total_filter (counted t.creating) (t.state.updateAndPurge config p newFile).files
    have empty : total ((t.state.updateAndPurge config p newFile).files.filter fun e =>
        !counted t.creating e) = 0 := by
      refine List.sum_eq_zero fun size member => ?_
      obtain ⟨e, inside, rfl⟩ := List.mem_map.mp member
      obtain ⟨there, status⟩ := List.mem_filter.mp inside
      exact careful e (old e there) (by simpa [counted, uncounted] using status)
    rw [info]
    omega

end

/-! ## Runs -/

theorem step_inv (apart : config.cachePrefix.isPrefixOf config.infoName = false) (t : Shared)
    (a : Action) (inv : Inv config t) (allowed : Admissible config t a) (careful : Careful t a) :
    Inv config (t.step config a) := by
  cases a with
  | createAndLock p file time => exact create_inv inv allowed
  | write p file size time =>
    refine change_inv inv (fun _ => rfl) (fun e same status => ?_) careful
    rw [counted_creating (same ▸ allowed : (p, e.name) ∈ t.creating)] at status
    cases status
  | updateCacheInfo p file =>
    rcases allowed with created | gone
    · exact count_inv inv created
    · exact count_gone inv gone
  | getReadLock p file =>
    refine inv.same ?_ ?_
    · unfold State.step State.getReadLock
      dsimp only
      split
      · rfl
      · split <;> rfl
    · unfold State.step State.getReadLock
      dsimp only
      split
      · rfl
      · split <;> rfl
  | access file time =>
    refine change_inv inv (fun _ => rfl) (fun _ _ _ => rfl) ?_
    have all : ∀ files : List CacheEntry, files.filter (counted []) = files := fun files =>
      List.filter_eq_self.mpr fun _ _ => rfl
    have sum : total ((t.state.change file fun e => { e with time }).files.filter (counted [])) =
        total (t.state.files.filter (counted [])) :=
      change_counted (fun _ => rfl) fun _ _ _ => rfl
    rw [all, all] at sum
    exact sum.trans_lt inv.bound
  | unlockAndClose p file => exact inv.same rfl rfl
  | updateAndPurge p newFile => exact updateAndPurge_inv inv apart careful
  | purgeFile p file => exact purgeFile_inv inv careful

theorem step_right (apart : config.cachePrefix.isPrefixOf config.infoName = false) (t : Shared)
    (a : Action) (inv : Inv config t) (careful : Careful t a) : StepRight config t a := by
  cases a with
  | updateAndPurge p newFile => exact updateAndPurge_right inv apart p newFile
  | purgeFile p file => exact purgeFile_noWrap inv careful
  | _ => trivial

theorem Inv.accounted {t : Shared} (inv : Inv config t) : Accounted t := by
  intro nobody
  rw [inv.info, nobody]
  exact congrArg total (List.filter_eq_self.mpr fun _ _ => rfl)

/-- In every run whose steps meet their conditions the info file has the sum of the sizes after each
step, and each step does what it is there for. -/
theorem accounted_careful (apart : config.cachePrefix.isPrefixOf config.infoName = false)
    {actions : List Action}
    (allowed : AllSteps (Shared.step config) (Admissible config) Shared.initial actions)
    (careful : AllSteps (Shared.step config) Careful Shared.initial actions) :
    AfterEach (Shared.step config) Accounted Shared.initial actions ∧
      AllSteps (Shared.step config) (StepRight config) Shared.initial actions := by
  have kept := step_inv apart
  constructor
  · exact afterEach_of_kept _ (fun t a inv both => kept t a inv both.1 both.2)
      (fun t inv => inv.accounted) inv_initial (allowed.and _ careful)
  · exact allSteps_of_kept _ kept (fun t a inv _ careful => step_right apart t a inv careful)
      inv_initial allowed careful

def small : Config := ⟨['p'], ['i'], 12, 9⟩

/-- Two files are made and counted, the older one makes room and the other is purged. -/
def rooms : List Action :=
  [.createAndLock 0 ['p', 'a'] 1, .write 0 ['p', 'a'] 10 1, .updateCacheInfo 0 ['p', 'a'],
    .unlockAndClose 0 ['p', 'a'], .createAndLock 1 ['p', 'b'] 2, .write 1 ['p', 'b'] 5 2,
    .updateCacheInfo 1 ['p', 'b'], .updateAndPurge 1 ['p', 'b'], .purgeFile 1 ['p', 'b']]

theorem accounted_careful_rooms :
    AfterEach (Shared.step small) Accounted Shared.initial rooms ∧
      AllSteps (Shared.step small) (StepRight small) Shared.initial rooms :=
  accounted_careful (by decide)
    ⟨by decide, by decide, by decide, by decide, by decide, by decide, by decide, by decide,
      by decide, trivial⟩
    ⟨by decide, by decide, by decide, by decide, by decide, by decide, by decide, by decide,
      by decide +kernel, trivial⟩

/-- A file that another process has created and written, and not counted yet. -/
def early : List Action :=
  [.createAndLock 0 ['p', 'a'] 1, .write 0 ['p', 'a'] 10 1, .updateAndPurge 1 ['p', 'b'],
    .updateCacheInfo 0 ['p', 'a']]

/-- It is counted twice. -/
theorem accounted_fails : ¬ ∀ (config : Config) (actions : List Action),
    config.cachePrefix.isPrefixOf config.infoName = false →
    AllSteps (Shared.step config) (Admissible config) Shared.initial actions →
    AfterEach (Shared.step config) Accounted Shared.initial actions ∧
      AllSteps (Shared.step config) (StepRight config) Shared.initial actions := by
  intro always
  have run := always small early (by decide)
    ⟨by decide, by decide, by decide, by decide +kernel, trivial⟩
  have last : Accounted (early.foldl (Shared.step small) Shared.initial) :=
    run.1.2.2.2.1
  revert last
  unfold Accounted
  decide +kernel

end Libdap.Guarantees.DAPCache3
