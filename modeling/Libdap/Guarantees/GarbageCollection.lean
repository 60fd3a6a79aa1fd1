import Libdap.Guarantees.HTTPCacheSize

/-!
# Garbage collection ends

`hits_gc` counts its threshold up until the size has come down. It ends where the entries
in use leave room: when the threshold has passed the largest hit count no other entry is
left. A pass removes all the entries of a hit count, and does not look at the size between
two of them.
-/
namespace Libdap.Guarantees.GarbageCollection
open Libdap.Source Libdap.Source.HTTPCacheTable Libdap.Source.HTTPCache
open HTTPCacheTable HTTPCacheLocks HTTPCacheSize

/-- The table between operations, as far as the collection relies on it. -/
structure Steady (t : Table) : Prop where
  shape : Shape t
  measured : Measured t
  readers : ∀ e ∈ entries t, 0 ≤ e.readers

/-- The space of the entries that are being read. -/
def heldSpace (t : Table) : Int :=
  total t.blockSize ((entries t).filter fun e => decide (0 < e.readers))

/-- The entries in use alone do not fill the cache. -/
def Roomy (config : Config) (t : Table) : Prop :=
  heldSpace t + config.folderSize < config.totalSize - config.gcBuffer

/-- The table in front of `hits_gc`. -/
def beforeHits (config : Config) (now : Int) (t : Table) : Table :=
  (tooBigGC config (expiredGC config now t).2).2

/-- The table after the passes of `hits_gc` for 0, 1, ..., n - 1 hits. -/
def passes (t : Table) : Nat → Table
  | 0 => t
  | n + 1 => ((passes t n).deleteByHits n).2

variable {config : Config} {before t : Table}

theorem Kept.steady {s : State} (kept : Kept s) (awake : s.hung = false) : Steady s.table := by
  have inv := kept.ready awake
  refine ⟨inv.shape, kept.measured awake, fun e member => ?_⟩
  have count := (inv.disciplined e member).readers
  omega

/-! ## What every removal keeps -/

structure Spared (config : Config) (before t : Table) : Prop where
  steady : Steady t
  room : Roomy config t
  held : ∀ e ∈ entries before, 0 < e.readers → e ∈ entries t

theorem spared_shrinks : Shrinks (Spared config before) := by
  intro t doomed spared idle
  have unread_kept : ∀ e ∈ entries t, 0 < e.readers → doomed e = false := by
    intro e member reading
    by_contra gone
    have none_reads := idle e member (by simpa using gone)
    omega
  refine ⟨⟨spared.steady.shape.without, measured_without t doomed spared.steady.measured idle, ?_⟩,
    ?_, ?_⟩
  · intro e member
    rw [entries_without] at member
    exact spared.steady.readers e (List.mem_filter.mp member).1
  · have same : heldSpace (without doomed t) = heldSpace t := by
      unfold heldSpace
      rw [entries_without, List.filter_filter]
      refine congrArg (total t.blockSize) (List.filter_congr fun e member => ?_)
      by_cases reading : 0 < e.readers
      · simp [unread_kept e member reading]
      · simp [reading]
    unfold Roomy
    rw [same]
    exact spared.room
  · intro e member reading
    have there := spared.held e member reading
    rw [entries_without, List.mem_filter, unread_kept e there reading]
    exact ⟨there, rfl⟩

theorem clean_spared (spared : Spared config before t) (doomed : CacheEntry → Bool) :
    (t.clean (unread doomed)).1 = .returned ∧
      Spared config before (t.clean (unread doomed)).2 := by
  have left := clean_unread spared_shrinks spared doomed
  rw [clean_unread_eq] at left ⊢
  exact ⟨rfl, left nofun⟩

theorem expiredGC_spared (spared : Spared config before t) (now : Int) :
    (expiredGC config now t).1 = .returned ∧ Spared config before (expiredGC config now t).2 := by
  unfold expiredGC
  split
  · exact ⟨rfl, spared⟩
  · exact clean_spared spared _

theorem tooBigGC_spared (spared : Spared config before t) :
    (tooBigGC config t).1 = .returned ∧ Spared config before (tooBigGC config t).2 := by
  unfold tooBigGC
  split
  · exact clean_spared spared _
  · exact ⟨rfl, spared⟩

theorem passes_spared (spared : Spared config before t) (n : Nat) :
    Spared config before (passes t n) := by
  induction n with
  | zero => exact spared
  | succ n ih => exact (clean_spared ih _).2

/-! ## The passes -/

/-- What the first n passes remove. -/
def spent (n : Nat) (e : CacheEntry) : Bool :=
  decide (e.readers = 0 ∧ 0 < n ∧ e.hits < n)

theorem entries_passes (t : Table) (n : Nat) :
    entries (passes t n) = (entries t).filter fun e => !spent n e := by
  induction n with
  | zero =>
    refine (List.filter_eq_self.mpr fun e _ => ?_).symm
    simp [spent]
  | succ n ih =>
    rw [passes, Table.deleteByHits, clean_unread_eq, entries_without, ih, List.filter_filter]
    refine List.filter_congr fun e _ => ?_
    rw [Bool.eq_iff_iff]
    simp only [spent, Bool.and_eq_true, Bool.not_eq_true', decide_eq_false_iff_not,
      decide_eq_true_eq]
    omega

theorem hits_le_most {e : CacheEntry} (member : e ∈ entries t) : e.hits ≤ mostHits t := by
  change e.hits ≤ (entries t).foldl (fun most e => max most e.hits) 0
  have grows : ∀ (list : List CacheEntry) (most : Int),
      most ≤ list.foldl (fun most e => max most e.hits) most ∧
        ∀ e ∈ list, e.hits ≤ list.foldl (fun most e => max most e.hits) most := by
    intro list
    induction list with
    | nil => exact fun most => ⟨le_rfl, fun e inside => absurd inside List.not_mem_nil⟩
    | cons first rest ih =>
      intro most
      have later := ih (max most first.hits)
      refine ⟨(le_max_left ..).trans later.1, fun e inside => ?_⟩
      rcases List.mem_cons.mp inside with rfl | deeper
      · exact (le_max_right ..).trans later.1
      · exact later.2 e deeper
  exact (grows (entries t) 0).2 e member

/-- Where only entries in use are left, there is room. -/
theorem stopGC_of_held (spared : Spared config before t)
    (held : ∀ e ∈ entries t, e.readers ≠ 0) : stopGC config t = true := by
  have all : ((entries t).filter fun e => decide (0 < e.readers)) = entries t := by
    refine List.filter_eq_self.mpr fun e member => decide_eq_true ?_
    have positive := spared.steady.readers e member
    have used := held e member
    omega
  have whole : (t.currentSize : Int) = heldSpace t := by
    rw [heldSpace, all]
    exact spared.steady.measured.size
  rw [stopGC, decide_eq_true_eq, whole]
  exact spared.room

theorem stopGC_last (spared : Spared config before t) :
    stopGC config (passes t ((mostHits t).toNat + 1)) = true := by
  refine stopGC_of_held (passes_spared spared _) fun e member unread => ?_
  rw [entries_passes, List.mem_filter] at member
  have bound := hits_le_most member.1
  have left := member.2
  simp only [spent, Bool.not_eq_true', decide_eq_false_iff_not] at left
  omega

/-- The loop makes the passes up to the first one that frees enough. -/
theorem hitsLoop_passes (t : Table) {n : Nat} (stops : stopGC config (passes t n) = true)
    (goes : ∀ k, k < n → stopGC config (passes t k) = false) (fuel hits : Nat) (begun : hits ≤ n)
    (enough : n < hits + fuel) :
    hitsLoop config fuel hits (passes t hits) = (.returned, passes t n) := by
  induction fuel generalizing hits with
  | zero => omega
  | succ fuel ih =>
    rw [hitsLoop]
    rcases Nat.lt_or_eq_of_le begun with earlier | rfl
    · have returned : (passes t hits).deleteByHits hits = (.returned, passes t (hits + 1)) := by
        rw [passes, Table.deleteByHits, clean_unread_eq]
      rw [if_neg (by rw [goes hits earlier]; exact Bool.false_ne_true), returned]
      exact ih (hits + 1) (by omega) (by omega)
    · rw [if_pos stops]

theorem hitsGC_passes (spared : Spared config before t) (starts : startGC config t = true) :
    ∃ n, hitsGC config t = (.returned, passes t n) ∧ stopGC config (passes t n) = true ∧
      ∀ k, k < n → stopGC config (passes t k) = false := by
  have some_stop : ∃ n, stopGC config (passes t n) = true := ⟨_, stopGC_last spared⟩
  have goes : ∀ k, k < Nat.find some_stop → stopGC config (passes t k) = false :=
    fun k earlier => Bool.eq_false_of_not_eq_true (Nat.find_min some_stop earlier)
  have bounded : Nat.find some_stop ≤ (mostHits t).toNat + 1 := Nat.find_le (stopGC_last spared)
  refine ⟨Nat.find some_stop, ?_, Nat.find_spec some_stop, goes⟩
  rw [hitsGC, if_pos starts]
  exact hitsLoop_passes t (Nat.find_spec some_stop) goes _ 0 (Nat.zero_le _) (by omega)

theorem startGC_of_stopGC (stops : stopGC config t = true) : startGC config t = false := by
  have below := of_decide_eq_true stops
  apply decide_eq_false
  omega

/-! ## The collection -/

theorem performGarbageCollection_eq (spared : Spared config before t) (now : Int) :
    performGarbageCollection config now t = hitsGC config (beforeHits config now t) := by
  have expired := expiredGC_spared spared now
  have big := tooBigGC_spared expired.2
  unfold performGarbageCollection beforeHits
  split
  · next t₁ same =>
      rw [same] at big
      split
      · next t₂ same₂ => rw [same, same₂]
      · next exit left other same₂ =>
          rw [same₂] at big
          exact absurd big.1 other
  · next exit left other same =>
      rw [same] at expired
      exact absurd expired.1 other

/-- The collection ends, removes nothing in use and leaves a cache that is not too big. If
it looked at the hits, every entry not in use that is left has more hits than each one
removed, and every pass began where there was not yet room enough. -/
theorem collection_ends (config : Config) (now : Int) (t : Table) (steady : Steady t)
    (room : Roomy config t) :
    (performGarbageCollection config now t).1 = .returned ∧
    (∀ e ∈ entries t, 0 < e.readers →
      e ∈ entries (performGarbageCollection config now t).2) ∧
    startGC config (performGarbageCollection config now t).2 = false ∧
    (startGC config (beforeHits config now t) = true →
      (∀ left ∈ entries (performGarbageCollection config now t).2, left.readers = 0 →
        ∀ gone ∈ entries (beforeHits config now t),
          gone ∉ entries (performGarbageCollection config now t).2 → gone.hits < left.hits) ∧
      ∃ n, (performGarbageCollection config now t).2 = passes (beforeHits config now t) n ∧
        stopGC config (passes (beforeHits config now t) n) = true ∧
        ∀ k, k < n → stopGC config (passes (beforeHits config now t) k) = false) := by
  have spared : Spared config t t := ⟨steady, room, fun e member _ => member⟩
  have ahead : Spared config t (beforeHits config now t) :=
    (tooBigGC_spared (expiredGC_spared spared now).2).2
  rw [performGarbageCollection_eq spared]
  generalize beforeHits config now t = t₁ at ahead ⊢
  cases starts : startGC config t₁ with
  | false =>
    have same : hitsGC config t₁ = (.returned, t₁) := by
      rw [hitsGC, if_neg (by rw [starts]; exact Bool.false_ne_true)]
    rw [same]
    exact ⟨rfl, ahead.held, starts, nofun⟩
  | true =>
    rcases hitsGC_passes ahead starts with ⟨n, result, stops, goes⟩
    rw [result]
    refine ⟨rfl, (passes_spared ahead n).held, startGC_of_stopGC stops, fun _ =>
      ⟨?_, n, rfl, stops, goes⟩⟩
    intro left kept idle gone member absent
    rw [entries_passes, List.mem_filter] at kept absent
    have spared_left := kept.2
    have spent_gone : spent n gone = true := by
      by_contra other
      exact absent ⟨member, by simpa using other⟩
    simp only [spent, Bool.not_eq_true', decide_eq_false_iff_not, decide_eq_true_eq]
      at spared_left spent_gone
    omega

/-! ## Two entries of the same hit count -/

def tight : Config :=
  { totalSize := 5000, folderSize := 0, gcBuffer := 500, maxEntrySize := 1000,
    defaultExpiration := 0, expireIgnored := true, alwaysValidate := false,
    lib := ⟨fun _ => 0, fun _ => 0⟩ }

def stored (address : Nat) (url : String) : CacheEntry :=
  { CacheEntry.make address url.toList with size := 1 }

/-- Two responses of one byte, a block each, that nobody asked for again. -/
def crowded : Table :=
  withEntry (stored 1 "http:b") (withEntry (stored 0 "http:a") (Table.empty 4096))

theorem entries_crowded : entries crowded = [stored 0 "http:a", stored 1 "http:b"] := by
  decide +kernel

theorem steady_crowded : Steady crowded := by
  have same : ∀ e ∈ entries crowded, e.size = 1 ∧ e.readers = 0 := by
    rw [entries_crowded]
    decide
  have first : Shape (withEntry (stored 0 "http:a") (Table.empty 4096)) := by
    refine (inv_empty 4096).shape.withEntry fun other member => ?_
    rw [entries_empty] at member
    cases member
  refine ⟨first.withEntry ?_, ⟨by decide, fun e member => ?_, ?_⟩, fun e member => ?_⟩
  · have one : entries (withEntry (stored 0 "http:a") (Table.empty 4096)) =
        [stored 0 "http:a"] := by decide +kernel
    rw [one]
    decide
  · rw [(same e member).1]
    unfold HTTPCacheSize.Small
    decide
  · decide +kernel
  · rw [(same e member).2]

theorem roomy_crowded : Roomy tight crowded := by
  unfold Roomy heldSpace
  rw [entries_crowded]
  decide

theorem crowded_starts : startGC tight (beforeHits tight 0 crowded) = true := by decide +kernel

/-- A third response, which is being read. -/
def busy : Table := withEntry { stored 2 "http:c" with readers := 1 } crowded

theorem entries_busy : entries busy =
    [stored 0 "http:a", stored 1 "http:b", { stored 2 "http:c" with readers := 1 }] := by
  decide +kernel

theorem steady_busy : Steady busy := by
  have each : ∀ e ∈ entries busy, e.size = 1 ∧ 0 ≤ e.readers := by
    rw [entries_busy]
    decide
  refine ⟨steady_crowded.shape.withEntry ?_, ⟨by decide, fun e member => ?_, ?_⟩,
    fun e member => (each e member).2⟩
  · rw [entries_crowded]
    decide
  · rw [(each e member).1]
    unfold HTTPCacheSize.Small
    decide
  · decide +kernel

theorem roomy_busy : Roomy tight busy := by
  unfold Roomy heldSpace
  rw [entries_busy]
  decide

theorem collection_ends_busy :
    (performGarbageCollection tight 0 busy).1 = .returned ∧
      startGC tight (performGarbageCollection tight 0 busy).2 = false :=
  have ends := collection_ends tight 0 busy steady_busy roomy_busy
  ⟨ends.1, ends.2.2.1⟩

/-- The sizes in front of each removal of one pass, in the order of `for_each`. -/
def sizesWithin (t : Table) (hits : Int) : List Nat :=
  (((entries t).filter fun e => decide (e.readers = 0 ∧ e.hits ≤ hits)).scanl
    (release t.blockSize) t.currentSize).dropLast

/-- Nothing more goes once there is room enough. -/
def StopsAtOnce (config : Config) (t : Table) : Prop :=
  ∀ n, (∀ k, k ≤ n → stopGC config (passes t k) = false) → ∀ size ∈ sizesWithin (passes t n) n,
    stopGC config { passes t n with currentSize := size } = false

/-- The pass for no hits removes the second entry too, though the first one was enough. -/
theorem collection_overshoots : ¬ ∀ (config : Config) (now : Int) (t : Table), Steady t →
    Roomy config t → startGC config (beforeHits config now t) = true →
    StopsAtOnce config (beforeHits config now t) := by
  intro stops
  have sizes : sizesWithin (beforeHits tight 0 crowded) 0 = [8192, 4096] := by decide +kernel
  have full : stopGC tight (beforeHits tight 0 crowded) = false := by decide +kernel
  have after := stops tight 0 crowded steady_crowded roomy_crowded crowded_starts 0
    (fun k first => by
      rw [Nat.le_zero.mp first]
      exact full)
    4096
  change 4096 ∈ sizesWithin (beforeHits tight 0 crowded) 0 → _ at after
  rw [sizes] at after
  exact absurd (after (by decide)) (by decide)

end Libdap.Guarantees.GarbageCollection
