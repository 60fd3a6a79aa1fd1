import Libdap.Guarantees.DuplicateFrame
import Libdap.Source.Grid

/-!
# The two records of a Grid's parts

`d_vars` of a Grid with an array should be the array followed by the maps. `add_var`
and `add_map` append to `d_vars`, whatever is there already; `set_array` leaves it as it
is; `prepend_map` inserts in front of the array.
-/
namespace Libdap.Guarantees.GridParts
open Libdap.Library Libdap.Source Libdap.Source.Variables Libdap.Source.Grid
open PtrDuplicate DuplicateFrame

variable {depth : Nat} {m m' m'' : Memory} {this this' a p : Nat} {v : Variable}

/-- Once there is an array, `d_vars` is the array and the maps, none of them listed twice
and none deleted. -/
def Aligned (m : Memory) (this : Nat) : Prop :=
  ∀ v vars array maps, m.lookup this = some v → v.contents = .grid vars (some array) maps →
    vars = array :: maps ∧ vars.Nodup ∧ ∀ c ∈ vars, ∃ w, m.lookup c = some w

/-- The invariant: before there is an array, `d_vars` is the list of the maps. -/
def Parts (m : Memory) (this : Nat) (vars : List Nat) (array : Option Nat) (maps : List Nat) :
    Prop :=
  (∃ v, m.lookup this = some v ∧ v.contents = .grid vars array maps) ∧
    vars = array.toList ++ maps ∧
    (array.isSome → vars.Nodup ∧ ∀ c ∈ vars, ∃ w, m.lookup c = some w)

theorem Parts.aligned {vars maps : List Nat} {array : Option Nat}
    (parts : Parts m this vars array maps) : Aligned m this := by
  obtain ⟨⟨v, found, contents⟩, both, whole⟩ := parts
  intro v' vars' array' maps' found' contents'
  cases found.symm.trans found'
  cases contents.symm.trans contents'
  exact ⟨both, whole rfl⟩

/-- What a call may rely on, given the array and the maps there are before it. -/
def KeepsRecord (array : Option Nat) (maps : List Nat) : Call → Prop
  | .addVar _ part => (part = .array ∨ part = .nil ∧ array = none) → maps = []
  | .addVarNocopy bt part =>
    ((part = .array ∨ part = .nil ∧ array = none) → maps = []) ∧
      ∀ a, array = some a → ∀ c, bt = some c → c ∉ a :: maps
  | .setArray p => p = array
  | .addMap p asCopy =>
    asCopy = false → ∀ a, array = some a → ∀ c, p = some c → c ∉ a :: maps
  | .prependMap _ _ => array = none
  | .copyConstruct => True

/-- No object that was there has been deleted. -/
def KeepsLive (m m' : Memory) : Prop :=
  ∀ c, (∃ v, m.lookup c = some v) → ∃ v, m'.lookup c = some v

theorem KeepsLive.trans (first : KeepsLive m m') (second : KeepsLive m' m'') :
    KeepsLive m m'' :=
  fun c live => second c (first c live)

theorem keepsLive_modify (m : Memory) (a : Nat) (f : Variable → Variable) :
    KeepsLive m (m.modify a f) := by
  rintro c ⟨v, found⟩
  by_cases same : c = a
  · subst same
    exact ⟨f v, by rw [Heap.lookup_modify_same, found]; rfl⟩
  · exact ⟨v, (Heap.lookup_modify_other m same f).trans found⟩

theorem keepsLive_extends (kept : m.Extends m.size m') : KeepsLive m m' := by
  rintro c ⟨v, found⟩
  have old := Heap.lt_of_lookup found
  exact ⟨v, (kept.lookup old (Nat.ne_of_lt old)).trans found⟩

/-- The contents of the Grid after one of its parts has been told its parent and the
lists have been changed by `f`. -/
theorem modified_contents {f : Variable → Variable} (found : m.lookup this = some v) :
    ∃ w u, ((m.modify p (setParent this)).modify this f).lookup this = some u ∧
      u.contents = (f w).contents ∧ w.contents = v.contents := by
  by_cases same : this = p
  · subst same
    refine ⟨setParent this v, f (setParent this v), ?_, rfl, rfl⟩
    rw [Heap.lookup_modify_same, Heap.lookup_modify_same, found]
    rfl
  · refine ⟨v, f v, ?_, rfl, rfl⟩
    rw [Heap.lookup_modify_same, Heap.lookup_modify_other m same, found]
    rfl

/-- A map goes to the end of both lists. -/
theorem pushMap_parts {vars maps : List Nat} {array : Option Nat}
    (parts : Parts m this vars array maps) (live : ∃ w, m.lookup p = some w)
    (new : array.isSome → p ∉ vars) :
    Parts ((m.modify p (setParent this)).modify this (pushMap p)) this (vars ++ [p]) array
      (maps ++ [p]) := by
  obtain ⟨⟨v, found, contents⟩, both, whole⟩ := parts
  obtain ⟨w, u, found', same, sameW⟩ := modified_contents (p := p) (f := pushMap p) found
  have kept : KeepsLive m ((m.modify p (setParent this)).modify this (pushMap p)) :=
    (keepsLive_modify m p _).trans (keepsLive_modify _ this _)
  refine ⟨⟨u, found', ?_⟩, ?_, ?_⟩
  · simp [same, pushMap, sameW, contents]
  · rw [both, List.append_assoc]
  · intro set
    obtain ⟨single, alive⟩ := whole set
    constructor
    · simpa using List.Nodup.concat (new set) single
    · intro c mem
      rcases List.mem_append.mp mem with old | last
      · exact kept c (alive c old)
      · rw [List.mem_singleton] at last
        exact kept c (last ▸ live)

/-- Before there is an array, a map may also go to the front of both. -/
theorem prepend_parts {vars maps : List Nat} (parts : Parts m this vars none maps) :
    Parts ((m.modify p (setParent this)).modify this (Grid.prepend p)) this (p :: vars) none
      (p :: maps) := by
  obtain ⟨⟨v, found, contents⟩, both, _⟩ := parts
  obtain ⟨w, u, found', same, sameW⟩ := modified_contents (p := p) (f := Grid.prepend p) found
  refine ⟨⟨u, found', ?_⟩, ?_, by simp⟩
  · simp [same, Grid.prepend, sameW, contents]
  · simpa using both

/-- What `set_array` has done, and `add_var` after it, when there was no array. -/
theorem addArray_contents {vars maps : List Nat} (found : m.lookup this = some v)
    (contents : v.contents = .grid vars none maps)
    (set : setArrayVar depth m this (some p) = .ok m') :
    (∃ w, m.lookup p = some w) ∧ KeepsLive m (m'.modify this (pushVar p)) ∧
      ∃ u, (m'.modify this (pushVar p)).lookup this = some u ∧
        u.contents = .grid (vars ++ [p]) (some p) maps := by
  unfold setArrayVar at set
  rw [fetch_of_lookup found] at set
  have unset : arrayVar v = none := by simp [arrayVar, contents]
  change (if arrayVar v = some p then _ else _) = _ at set
  rw [unset, if_neg (by simp)] at set
  obtain ⟨_, freed, rest⟩ := bind_success set
  cases freed
  obtain ⟨_, _, rest⟩ := bind_success rest
  obtain ⟨w, fetched, same⟩ := bind_success rest
  cases same
  have found₁ : (m.modify this (replaceArray p)).lookup this = some (replaceArray p v) := by
    rw [Heap.lookup_modify_same, found]
    rfl
  obtain ⟨x, u, found', same, sameX⟩ := modified_contents (p := p) (f := pushVar p) found₁
  refine ⟨⟨w, fetch_success fetched⟩, ?_, u, found', ?_⟩
  · exact ((keepsLive_modify m this _).trans (keepsLive_modify _ p _)).trans
      (keepsLive_modify _ this _)
  · simp [same, pushVar, sameX, replaceArray, contents]

theorem setArrayVar_same {vars maps : List Nat} {array : Nat} (found : m.lookup this = some v)
    (contents : v.contents = .grid vars (some array) maps) :
    setArrayVar depth m this (some array) = .ok m := by
  unfold setArrayVar
  rw [fetch_of_lookup found]
  have set : arrayVar v = some array := by simp [arrayVar, contents]
  change (if arrayVar v = some array then _ else _) = _
  rw [set, if_pos rfl]
  rfl

/-- What is not freed by `delete` is as it was. -/
theorem destroy_keeps {b : Nat} (destroyed : destroy depth m a = .ok m') :
    m'.lookup b = m.lookup b ∨ m'.lookup b = none := by
  induction depth generalizing m a m' with
  | zero => cases destroyed
  | succ depth ih =>
    obtain ⟨x, _, rest⟩ := bind_success destroyed
    obtain ⟨m₁, parts, same⟩ := bind_success rest
    cases same
    have before : m₁.lookup b = m.lookup b ∨ m₁.lookup b = none := by
      refine foldlM_keeps (P := fun s s' : Memory => s'.lookup b = s.lookup b ∨
        s'.lookup b = none) (fun _ => .inl rfl) ?_ parts
      intro s c s' s'' first later
      rcases later with same | gone
      · rcases ih first with same' | gone'
        · exact .inl (same.trans same')
        · exact .inr (same.trans gone')
      · exact .inr gone
    by_cases same : b = a
    · subst same
      exact .inr (Heap.lookup_free_same m₁ b)
    · rw [Heap.lookup_free_other m₁ same]
      exact before

/-- `set_array` with another array than the current one: `d_vars` is not told. -/
theorem setArrayVar_contents {vars maps : List Nat} {array : Option Nat}
    (found : m.lookup this = some v) (contents : v.contents = .grid vars array maps)
    (other : array ≠ some p) (set : setArrayVar depth m this (some p) = .ok m') :
    ∃ u, m'.lookup this = some u ∧ u.contents = .grid vars (some p) maps := by
  unfold setArrayVar at set
  rw [fetch_of_lookup found] at set
  have current : arrayVar v = array := by simp [arrayVar, contents]
  change (if arrayVar v = some p then _ else _) = _ at set
  rw [current, if_neg other] at set
  obtain ⟨m₁, freed, rest⟩ := bind_success set
  obtain ⟨g, fetched, rest⟩ := bind_success rest
  obtain ⟨_, _, same⟩ := bind_success rest
  cases same
  have found₁ : m₁.lookup this = some v := by
    have still := fetch_success fetched
    cases array with
    | none =>
      cases freed
      exact found
    | some old =>
      obtain ⟨m₂, destroyed, same⟩ := bind_success freed
      cases same
      rcases destroy_keeps (b := this) destroyed with same | gone
      · exact same.trans found
      · rw [gone] at still
        cases still
  have changed : (m₁.modify this (replaceArray p)).lookup this = some (replaceArray p v) := by
    rw [Heap.lookup_modify_same, found₁]
    rfl
  by_cases same : this = p
  · subst same
    refine ⟨setParent this (replaceArray this v), ?_, by simp [setParent, replaceArray, contents]⟩
    rw [Heap.lookup_modify_same, changed]
    rfl
  · refine ⟨replaceArray p v, ?_, by simp [replaceArray, contents]⟩
    rw [Heap.lookup_modify_other _ same, changed]

/-- What `ptr_duplicate` makes of a Grid has both records in order. -/
theorem copy_parts {vars maps : List Nat} {array : Option Nat}
    (found : m.lookup this = some v) (contents : v.contents = .grid vars array maps)
    (copied : ptrDuplicate depth m this = .ok (this', m')) :
    ∃ array' maps', Parts m' this' ([array'] ++ maps') (some array') maps' := by
  cases depth with
  | zero => cases copied
  | succ depth =>
    obtain ⟨x, fetched, rest⟩ := bind_success copied
    obtain ⟨m'', built, same⟩ := bind_success rest
    cases same
    cases found.symm.trans (fetch_success fetched)
    generalize hm : m.alloc (some v.blank) = m₁ at built
    have kept : m.Extends m.size m₁ := hm ▸ .alloc m _ m.size
    have own : m₁.lookup m.size = some v.blank := by
      rw [← hm]
      exact Heap.lookup_alloc_new m _
    have old := Heap.lt_of_lookup found
    have found₁ : m₁.lookup this = some v := (kept.lookup old (Nat.ne_of_lt old)).trans found
    rw [contents] at built
    obtain ⟨_, _, _, array', cs', _, _, news, final, _⟩ :=
      gridDuplicate_frame (ptrDuplicate_frames depth) (Heap.lt_of_lookup own) found₁ built
    rw [own, Option.map_some] at final
    have start : (setArray array' v.blank).contents =
        .grid [array'] (some array') [] := by
      simp [setArray, contents, Variable.blank, Contents.blank]
    refine ⟨array', cs', ⟨_, final, pushAll_maps cs' start⟩, rfl, ?_⟩
    intro _
    exact ⟨news.increasing.imp fun less => Nat.ne_of_lt less, news.there⟩

/-- New objects do not concern a Grid. -/
theorem Parts.extends {vars maps : List Nat} {array : Option Nat}
    (parts : Parts m this vars array maps) (kept : m.Extends m.size m') :
    Parts m' this vars array maps := by
  obtain ⟨⟨v, found, contents⟩, both, whole⟩ := parts
  have old := Heap.lt_of_lookup found
  refine ⟨⟨v, (kept.lookup old (Nat.ne_of_lt old)).trans found, contents⟩, both, ?_⟩
  intro set
  exact ⟨(whole set).1, fun c mem => keepsLive_extends kept c ((whole set).2 c mem)⟩

theorem Parts.setParent {vars maps : List Nat} {array : Option Nat}
    (parts : Parts m this vars array maps) (parent : Nat) :
    Parts (m.modify p (setParent parent)) this vars array maps := by
  obtain ⟨⟨v, found, contents⟩, both, whole⟩ := parts
  refine ⟨?_, both, ?_⟩
  · by_cases same : this = p
    · subst same
      refine ⟨Variables.setParent parent v, ?_, contents⟩
      rw [Heap.lookup_modify_same, found]
      rfl
    · exact ⟨v, (Heap.lookup_modify_other m same _).trans found, contents⟩
  · intro set
    exact ⟨(whole set).1, fun c mem => keepsLive_modify m p _ c ((whole set).2 c mem)⟩

/-- A part made after the others is none of them. -/
theorem Parts.new {vars maps : List Nat} {array : Option Nat}
    (parts : Parts m this vars array maps) (fresh : m.size ≤ p) : array.isSome → p ∉ vars := by
  intro set mem
  obtain ⟨w, found⟩ := (parts.2.2 set).2 p mem
  exact absurd (Heap.lt_of_lookup found) (Nat.not_lt.mpr fresh)

/-- The array is added: after the maps, if there are any. -/
theorem array_step {vars maps : List Nat} (parts : Parts m this vars none maps)
    (set : setArrayVar depth m this (some p) = .ok m') :
    (maps = [] → Parts (m'.modify this (pushVar p)) this [p] (some p) []) ∧
      (maps ≠ [] → ¬ Aligned (m'.modify this (pushVar p)) this) := by
  obtain ⟨⟨v, found, contents⟩, both, _⟩ := parts
  obtain ⟨live, kept, u, found', contents'⟩ := addArray_contents found contents set
  have same : vars = maps := by simpa using both
  subst same
  constructor
  · rintro rfl
    refine ⟨⟨u, found', contents'⟩, rfl, fun _ => ⟨List.nodup_singleton p, ?_⟩⟩
    intro c mem
    rw [List.mem_singleton] at mem
    exact kept c (mem ▸ live)
  · intro some_maps aligned
    obtain ⟨order, single, _⟩ := aligned u _ p vars found' contents'
    cases vars with
    | nil => exact some_maps rfl
    | cons c cs =>
      simp only [List.cons_append, List.cons.injEq] at order
      rw [List.cons_append, List.nodup_cons] at single
      have last : c ∈ cs ++ [p] := by
        rw [order.1]
        exact List.mem_append_right cs (List.mem_singleton_self p)
      exact single.1 last

/-- A map is added at the end. -/
theorem map_step {vars maps : List Nat} {array : Option Nat}
    (parts : Parts m this vars array maps) (live : ∃ w, m.lookup p = some w) :
    ((array.isSome → p ∉ vars) →
      Parts ((m.modify p (setParent this)).modify this (pushMap p)) this (vars ++ [p]) array
        (maps ++ [p])) ∧
      (array.isSome → p ∈ vars →
        ¬ Aligned ((m.modify p (setParent this)).modify this (pushMap p)) this) := by
  refine ⟨pushMap_parts parts live, ?_⟩
  intro set mem aligned
  obtain ⟨⟨v, found, contents⟩, both, whole⟩ := parts
  obtain ⟨a, rfl⟩ := Option.isSome_iff_exists.mp set
  obtain ⟨w, u, found', same, sameW⟩ := modified_contents (p := p) (f := pushMap p) found
  have contents' : u.contents = .grid (vars ++ [p]) (some a) (maps ++ [p]) := by
    simp [same, pushMap, sameW, contents]
  obtain ⟨_, single, _⟩ := aligned u _ a _ found' contents'
  rw [List.nodup_append] at single
  exact single.2.2 p mem p (List.mem_singleton_self p) rfl

theorem takesArray_iff {vars maps : List Nat} {array : Option Nat}
    (contents : v.contents = .grid vars array maps) (part : Part) :
    takesArray v part = true ↔ part = .array ∨ part = .nil ∧ array = none := by
  cases part <;> simp [takesArray, arrayVar, contents]

/-- An array is taken by the default only where there is none, and refused else. -/
theorem unset_of_takes {v : Variable} {vs maps : List Nat} {array : Option Nat} {part : Part}
    (contents : v.contents = .grid vs array maps) (takes : takesArray v part = true)
    (unset : ¬ (part = .array ∧ array.isSome)) : array = none := by
  rcases (takesArray_iff contents part).mp takes with rfl | ⟨_, none_set⟩
  · simpa using unset
  · exact none_set

theorem listed_iff {vars maps : List Nat} {array : Option Nat}
    (both : vars = array.toList ++ maps) :
    (∀ a, array = some a → p ∉ a :: maps) ↔ (array.isSome → p ∉ vars) := by
  cases array <;> simp [both]

/-- A call that comes to an end keeps the invariant if it keeps to `KeepsRecord`, and
otherwise leaves the records out of order. -/
def Decides (array : Option Nat) (maps : List Nat) (step : Call) (m' : Memory) (this' : Nat) :
    Prop :=
  (KeepsRecord array maps step → ∃ vars' array' maps', Parts m' this' vars' array' maps') ∧
    (¬ KeepsRecord array maps step → ¬ Aligned m' this')

section
variable {vars maps : List Nat} {array : Option Nat}

theorem addVar_step {bt : Option Nat} {part : Part} (parts : Parts m this vars array maps)
    (added : addVar depth m this bt part = .ok m') :
    Decides array maps (.addVar bt part) m' this := by
  obtain ⟨⟨v, found, contents⟩, both, _⟩ := id parts
  cases bt with
  | none => cases added
  | some bt =>
    unfold addVar at added
    rw [fetch_of_lookup found] at added
    change (if part = .array ∧ (arrayVar v).isSome then _ else _) = _ at added
    have current : arrayVar v = array := by simp [arrayVar, contents]
    rw [current] at added
    split at added
    · cases added
    · rename_i unset
      split at added
      · rename_i takes
        obtain rfl := unset_of_takes contents takes unset
        rw [takesArray_iff contents] at takes
        obtain ⟨_, _, rest⟩ := bind_success added
        obtain ⟨⟨clone, m₁⟩, copied, rest⟩ := bind_success rest
        obtain ⟨m₂, set, same⟩ := bind_success rest
        cases same
        obtain ⟨_, _, kept⟩ := ptrDuplicate_frames depth m bt clone m₁ copied
        have step := array_step (parts.extends kept) set
        exact ⟨fun keeps => ⟨_, _, _, step.1 (keeps takes)⟩,
          fun broken => step.2 fun empty => broken fun _ => empty⟩
      · rename_i map
        rw [takesArray_iff contents] at map
        obtain ⟨⟨clone, m₁⟩, copied, same⟩ := bind_success added
        cases same
        obtain ⟨fresh, live, kept⟩ := ptrDuplicate_frames depth m bt clone m₁ copied
        have step := map_step (parts.extends kept) live
        exact ⟨fun _ => ⟨_, _, _, step.1 (parts.new fresh)⟩,
          fun broken => absurd (fun takes => absurd takes map) broken⟩

theorem addVarNocopy_step {bt : Option Nat} {part : Part} (parts : Parts m this vars array maps)
    (added : addVarNocopy depth m this bt part = .ok m') :
    Decides array maps (.addVarNocopy bt part) m' this := by
  obtain ⟨⟨v, found, contents⟩, both, _⟩ := id parts
  cases bt with
  | none => cases added
  | some bt =>
    unfold addVarNocopy at added
    rw [fetch_of_lookup found] at added
    change (if part = .array ∧ (arrayVar v).isSome then _ else _) = _ at added
    have current : arrayVar v = array := by simp [arrayVar, contents]
    rw [current] at added
    split at added
    · cases added
    · rename_i unset
      obtain ⟨w, fetched, added⟩ := bind_success added
      split at added
      · rename_i takes
        obtain rfl := unset_of_takes contents takes unset
        rw [takesArray_iff contents] at takes
        obtain ⟨_, _, rest⟩ := bind_success added
        obtain ⟨m₂, set, same⟩ := bind_success rest
        cases same
        have step := array_step (parts.setParent this) set
        refine ⟨fun keeps => ⟨_, _, _, step.1 (keeps.1 takes)⟩, fun broken => step.2 ?_⟩
        intro empty
        exact broken ⟨fun _ => empty, by simp⟩
      · rename_i map
        rw [takesArray_iff contents] at map
        cases added
        have step := map_step parts ⟨w, fetch_success fetched⟩
        have listed := listed_iff (p := bt) both
        constructor
        · intro keeps
          exact ⟨_, _, _, step.1 (listed.mp fun a set => keeps.2 a set bt rfl)⟩
        · intro broken
          have mem : ¬ (array.isSome → bt ∉ vars) := by
            intro absent
            refine broken ⟨fun takes => absurd takes map, ?_⟩
            rintro a set c ⟨⟩
            exact listed.mpr absent a set
          rw [not_forall, exists_prop, not_not] at mem
          exact step.2 mem.1 mem.2

theorem setArray_step {p : Option Nat} (parts : Parts m this vars array maps)
    (set : setArrayVar depth m this p = .ok m') :
    Decides array maps (.setArray p) m' this := by
  obtain ⟨⟨v, found, contents⟩, both, _⟩ := id parts
  cases p with
  | none => cases set
  | some p =>
    constructor
    · intro current
      change some p = array at current
      subst current
      rw [setArrayVar_same found contents] at set
      cases set
      exact ⟨vars, some p, maps, parts⟩
    · intro other aligned
      obtain ⟨u, found', contents'⟩ := setArrayVar_contents found contents (Ne.symm other) set
      obtain ⟨same, _, _⟩ := aligned u vars p maps found' contents'
      cases array with
      | none =>
        have lengths := congrArg List.length (both.symm.trans same)
        simp at lengths
      | some old =>
        have heads := both.symm.trans same
        simp only [Option.toList_some, List.singleton_append, List.cons.injEq] at heads
        exact other (congrArg some heads.1.symm)

theorem addMap_step {p : Option Nat} {asCopy : Bool} (parts : Parts m this vars array maps)
    (added : addMap depth m this p asCopy = .ok m') :
    Decides array maps (.addMap p asCopy) m' this := by
  obtain ⟨⟨v, found, contents⟩, both, _⟩ := id parts
  cases p with
  | none => cases added
  | some p =>
    obtain ⟨⟨c, m₁⟩, copied, same⟩ := bind_success added
    cases same
    cases asCopy with
    | true =>
      obtain ⟨fresh, live, kept⟩ := ptrDuplicate_frames depth m p c m₁ copied
      have step := map_step (parts.extends kept) live
      refine ⟨fun _ => ⟨_, _, _, step.1 (parts.new fresh)⟩, fun broken => ?_⟩
      exact absurd (fun copying : true = false => by cases copying) broken
    | false =>
      obtain ⟨w, fetched, same⟩ := bind_success copied
      cases same
      have step := map_step parts ⟨w, fetch_success fetched⟩
      have listed := listed_iff (p := p) both
      constructor
      · intro keeps
        exact ⟨_, _, _, step.1 (listed.mp fun a set => keeps rfl a set p rfl)⟩
      · intro broken
        have mem : ¬ (array.isSome → p ∉ vars) := by
          intro absent
          apply broken
          rintro _ a set c ⟨⟩
          exact listed.mpr absent a set
        rw [not_forall, exists_prop, not_not] at mem
        exact step.2 mem.1 mem.2

theorem prependMap_step {p : Option Nat} {asCopy : Bool} (parts : Parts m this vars array maps)
    (added : prependMap depth m this p asCopy = .ok m') :
    Decides array maps (.prependMap p asCopy) m' this := by
  obtain ⟨⟨v, found, contents⟩, both, _⟩ := id parts
  cases p with
  | none => cases added
  | some p =>
    obtain ⟨⟨c, m₁⟩, copied, same⟩ := bind_success added
    cases same
    have kept : m.Extends m.size m₁ := by
      cases asCopy with
      | true => exact (ptrDuplicate_frames depth m p c m₁ copied).2.2
      | false =>
        obtain ⟨_, _, same⟩ := bind_success copied
        cases same
        exact .refl _ _
    have parts₁ := parts.extends kept
    constructor
    · intro unset
      change array = none at unset
      subst unset
      exact ⟨_, _, _, prepend_parts parts₁⟩
    · intro set aligned
      change array ≠ none at set
      obtain ⟨a, rfl⟩ := Option.ne_none_iff_exists'.mp set
      obtain ⟨⟨x, found₁, contents₁⟩, _, _⟩ := parts₁
      obtain ⟨w, u, found', same, sameW⟩ :=
        modified_contents (p := c) (f := Grid.prepend c) found₁
      have contents' : u.contents = .grid (c :: vars) (some a) (c :: maps) := by
        simp [same, Grid.prepend, sameW, contents₁]
      obtain ⟨order, single, _⟩ := aligned u _ a _ found' contents'
      rw [both] at order
      simp only [Option.toList_some, List.singleton_append, List.cons.injEq] at order
      rw [List.nodup_cons, both, order.1] at single
      exact single.1 List.mem_cons_self

theorem copyConstruct_step (parts : Parts m this vars array maps)
    (done : call depth m this .copyConstruct = .ok (m', this')) :
    Decides array maps .copyConstruct m' this' := by
  obtain ⟨⟨v, found, contents⟩, _, _⟩ := parts
  refine ⟨fun _ => ?_, fun broken => absurd trivial broken⟩
  change (ptrDuplicate depth m this).map _ = _ at done
  cases copied : ptrDuplicate depth m this with
  | error failure => simp [copied, Except.map] at done
  | ok result =>
    obtain ⟨c, m₁⟩ := result
    simp only [copied, Except.map, Except.ok.injEq, Prod.mk.injEq] at done
    obtain ⟨rfl, rfl⟩ := done
    obtain ⟨array', maps', parts'⟩ := copy_parts found contents copied
    exact ⟨_, _, _, parts'⟩

theorem call_step {step : Call} (parts : Parts m this vars array maps)
    (done : call depth m this step = .ok (m', this')) : Decides array maps step m' this' := by
  have map_success : ∀ {x : Except Failure Memory}, x.map (·, this) = .ok (m', this') →
      x = .ok m' ∧ this' = this := by
    intro x mapped
    cases x with
    | error failure => cases mapped
    | ok m₁ =>
      cases mapped
      exact ⟨rfl, rfl⟩
  cases step with
  | addVar bt part =>
    obtain ⟨added, rfl⟩ := map_success done
    exact addVar_step parts added
  | addVarNocopy bt part =>
    obtain ⟨added, rfl⟩ := map_success done
    exact addVarNocopy_step parts added
  | setArray p =>
    obtain ⟨set, rfl⟩ := map_success done
    exact setArray_step parts set
  | addMap p asCopy =>
    obtain ⟨added, rfl⟩ := map_success done
    exact addMap_step parts added
  | prependMap p asCopy =>
    obtain ⟨added, rfl⟩ := map_success done
    exact prependMap_step parts added
  | copyConstruct => exact copyConstruct_step parts done

end

/-- The records are in order in every state that a sequence of calls reaches. -/
def AlwaysAligned (depth : Nat) : Memory → Nat → List Call → Prop
  | m, this, [] => Aligned m this
  | m, this, step :: steps =>
    Aligned m this ∧ ∀ m' this', call depth m this step = .ok (m', this') →
      AlwaysAligned depth m' this' steps

/-- Every call that succeeds keeps to `KeepsRecord` in the state before it. -/
def AllKeep (depth : Nat) : Memory → Nat → List Call → Prop
  | _, _, [] => True
  | m, this, step :: steps =>
    ∀ m' this', call depth m this step = .ok (m', this') →
      (∃ v, m.lookup this = some v ∧ KeepsRecord (arrayVar v) (mapVars v) step) ∧
        AllKeep depth m' this' steps

theorem alwaysAligned_of_parts {vars maps : List Nat} {array : Option Nat} (steps : List Call)
    (parts : Parts m this vars array maps) :
    AlwaysAligned depth m this steps ↔ AllKeep depth m this steps := by
  induction steps generalizing m this vars array maps with
  | nil => exact iff_of_true parts.aligned trivial
  | cons step steps ih =>
    obtain ⟨v, found, contents⟩ := parts.1
    have current : arrayVar v = array := by simp [arrayVar, contents]
    have currentMaps : mapVars v = maps := by simp [mapVars, contents]
    constructor
    · rintro ⟨_, later⟩ m' this' done
      have aligned : Aligned m' this' := by
        have rest := later m' this' done
        cases steps with
        | nil => exact rest
        | cons _ _ => exact rest.1
      have keeps : KeepsRecord array maps step := by
        by_contra broken
        exact (call_step parts done).2 broken aligned
      obtain ⟨_, _, _, parts'⟩ := (call_step parts done).1 keeps
      refine ⟨⟨v, found, ?_⟩, (ih parts').mp (later m' this' done)⟩
      rw [current, currentMaps]
      exact keeps
    · intro keep
      refine ⟨parts.aligned, ?_⟩
      intro m' this' done
      obtain ⟨⟨w, foundW, keeps⟩, rest⟩ := keep m' this' done
      cases found.symm.trans foundW
      rw [current, currentMaps] at keeps
      obtain ⟨_, _, _, parts'⟩ := (call_step parts done).1 keeps
      exact (ih parts').mpr rest

/-- From a new Grid on: the records are in order all the time exactly if the array comes
before the maps, `set_array` only names the array there is, `prepend_map` is not called
once there is an array, and no part is handed over twice. -/
theorem alwaysAligned_iff (depth : Nat) (m : Memory) (this : Nat) (v : Variable)
    (found : m.lookup this = some v) (new : v.contents = .grid [] none [])
    (steps : List Call) : AlwaysAligned depth m this steps ↔ AllKeep depth m this steps :=
  alwaysAligned_of_parts steps
    ⟨⟨v, found, new⟩, rfl, by simp⟩

def named (name : String) (type : VarType) (contents : Contents Nat) : Variable :=
  { base := { name, type, dataset := "", isRead := false, isSend := false,
              inSelection := false, isSynthesized := false, attr := [] },
    parent := none, contents }

/-- A new Grid, an array and a map. -/
def newGrid : Memory :=
  ⟨[some (named "g" .grid (.grid [] none [])),
    some (named "t" .array (.array Array.fresh (some 2) .byte [] [] none 0)),
    some (named "t" .byte (.simple [])),
    some (named "x" .array (.array Array.fresh (some 4) .byte [] [] none 0)),
    some (named "x" .byte (.simple []))]⟩

/-- The array, then a map, then a copy of the Grid. -/
theorem alwaysAligned_iff_newGrid :
    AlwaysAligned 2 newGrid 0 [.addVar (some 1) .array, .addVar (some 3) .maps, .copyConstruct] := by
  apply (alwaysAligned_iff 2 newGrid 0 _ rfl rfl
    [.addVar (some 1) .array, .addVar (some 3) .maps, .copyConstruct]).mpr
  intro m' this' first
  obtain ⟨rfl, rfl⟩ := Prod.mk.inj (Except.ok.inj first)
  refine ⟨⟨_, rfl, fun _ => rfl⟩, ?_⟩
  intro m'' this'' second
  obtain ⟨rfl, rfl⟩ := Prod.mk.inj (Except.ok.inj second)
  refine ⟨⟨_, rfl, ?_⟩, ?_⟩
  · rintro (part | ⟨part, _⟩) <;> cases part
  · exact fun _ _ _ => ⟨⟨_, rfl, trivial⟩, trivial⟩

/-- `prepend_map` puts the map in front of the array. -/
theorem alwaysAligned_fails :
    ¬ AlwaysAligned 2 newGrid 0 [.addVar (some 1) .array, .prependMap (some 3) true] := by
  intro always
  have aligned := (always.2 _ _ rfl).2 _ _ rfl
  have order := (aligned _ [7, 5] 5 [7] rfl rfl).1
  exact absurd order (by decide)

end Libdap.Guarantees.GridParts
