import Libdap.Library.Outcome
import Libdap.Guarantees.PtrDuplicate

/-!
# What the copy functions leave alone

Whatever the objects are like, a copy function that comes to an end has changed the
object it was called on and no other that was there; it has pushed one new object for
each of the source's.
-/
namespace Libdap.Guarantees.DuplicateFrame
open Libdap.Library Libdap.Source Libdap.Source.Variables
open PtrDuplicate

/-- `duplicate` makes new objects and leaves the old ones as they are. -/
def Frames (duplicate : Duplicate) : Prop :=
  ∀ m c c' m', duplicate m c = .ok (c', m') →
    m.size ≤ c' ∧ (∃ v, m'.lookup c' = some v) ∧ m.Extends m.size m'

/-- New objects at increasing addresses from `base` on. -/
structure NewObjects (m : Memory) (base : Nat) (cs : List Nat) : Prop where
  fresh : ∀ c ∈ cs, base ≤ c
  there : ∀ c ∈ cs, ∃ v, m.lookup c = some v
  increasing : cs.Pairwise (· < ·)

variable {m m' : Memory} {this base rhs : Nat} {duplicate : Duplicate} {v : Variable}

theorem NewObjects.nil : NewObjects m base [] :=
  ⟨by simp, by simp, .nil⟩

theorem fetch_success {a : Nat} (fetched : fetch m a = .ok v) : m.lookup a = some v := by
  unfold fetch at fetched
  split at fetched
  · cases fetched
    assumption
  · cases fetched

theorem copyMembers_frame (frames : Frames duplicate) (push : Nat → Variable → Variable)
    {cs : List Nat} (old : this < m.size)
    (copied : copyMembers duplicate this push m cs = .ok m') :
    ∃ cs', cs'.length = cs.length ∧ NewObjects m' m.size cs' ∧
      m'.lookup this = (m.lookup this).map (pushAll push cs') ∧ m.Extends this m' := by
  induction cs generalizing m with
  | nil =>
    cases copied
    refine ⟨[], rfl, .nil, ?_, .refl m' this⟩
    cases m'.lookup this <;> rfl
  | cons c cs ih =>
    obtain ⟨⟨c', m₁⟩, made, rest⟩ := bind_success copied
    obtain ⟨fresh, ⟨w, there⟩, kept⟩ := frames m c c' m₁ made
    have other : this ≠ c' := Nat.ne_of_lt (Nat.lt_of_lt_of_le old fresh)
    have pushed : m.Extends this ((m₁.modify c' (setParent this)).modify this (push c')) :=
      ((kept.any this).trans_fresh (.modify m₁ c' _) fresh).trans (.modify _ this _)
    have same : ((m₁.modify c' (setParent this)).modify this (push c')).lookup this =
        (m.lookup this).map (push c') := by
      rw [Heap.lookup_modify_same, Heap.lookup_modify_other m₁ other,
        kept.lookup old (Nat.ne_of_lt old)]
    have marked : ((m₁.modify c' (setParent this)).modify this (push c')).lookup c' =
        some (setParent this w) := by
      rw [Heap.lookup_modify_other _ other.symm, Heap.lookup_modify_same, there]
      rfl
    obtain ⟨cs', count, news, final, kept'⟩ :=
      ih (Nat.lt_of_lt_of_le old pushed.grows) rest
    have below := Heap.lt_of_lookup marked
    refine ⟨c' :: cs', by simp [count], ⟨?_, ?_, ?_⟩, ?_, pushed.trans kept'⟩
    · intro d mem
      cases mem with
      | head => exact fresh
      | tail _ later => exact Nat.le_trans pushed.grows (news.fresh d later)
    · intro d mem
      cases mem with
      | head => exact ⟨_, (kept'.lookup below other.symm).trans marked⟩
      | tail _ later => exact news.there d later
    · refine .cons ?_ news.increasing
      intro d later
      exact Nat.lt_of_lt_of_le below (news.fresh d later)
    · rw [final, same, Option.map_map]
      rfl

theorem copyValues_frame (frames : Frames duplicate) {cs cs' : List Nat}
    (copied : copyValues duplicate m cs = .ok (cs', m')) :
    cs'.length = cs.length ∧ m.Extends m.size m' := by
  induction cs generalizing m cs' with
  | nil =>
    cases copied
    exact ⟨rfl, .refl m' m'.size⟩
  | cons c cs ih =>
    obtain ⟨⟨c', m₁⟩, made, rest⟩ := bind_success copied
    obtain ⟨⟨ds, m₂⟩, others, same⟩ := bind_success rest
    cases same
    obtain ⟨_, _, kept⟩ := frames m c c' m₁ made
    obtain ⟨count, kept'⟩ := ih others
    exact ⟨by simp [count], kept.trans_fresh kept' kept.grows⟩

theorem copyRows_frame (frames : Frames duplicate) {rows : List (List Nat)}
    (old : this < m.size) (copied : copyRows duplicate this m rows = .ok m') :
    ∃ rows', rows'.length = rows.length ∧
      m'.lookup this = (m.lookup this).map (pushRows rows') ∧ m.Extends this m' := by
  induction rows generalizing m with
  | nil =>
    cases copied
    refine ⟨[], rfl, ?_, .refl m' this⟩
    cases m'.lookup this <;> rfl
  | cons row rows ih =>
    obtain ⟨⟨row', m₁⟩, made, rest⟩ := bind_success copied
    obtain ⟨_, kept⟩ := copyValues_frame frames made
    have pushed : m.Extends this (m₁.modify this (pushRow row')) :=
      (kept.any this).trans (.modify m₁ this _)
    obtain ⟨rows', count, final, kept'⟩ := ih (Nat.lt_of_lt_of_le old pushed.grows) rest
    refine ⟨row' :: rows', by simp [count], ?_, pushed.trans kept'⟩
    rw [final, Heap.lookup_modify_same, kept.lookup old (Nat.ne_of_lt old), Option.map_map]
    rfl

theorem constructorDuplicate_frame (frames : Frames duplicate)
    (old : this < m.size) (found : m.lookup rhs = some v)
    (copied : constructorDuplicate duplicate m this rhs = .ok m') :
    ∃ cs', cs'.length = v.vars.length ∧ NewObjects m' m.size cs' ∧
      m'.lookup this = (m.lookup this).map (pushAll pushVar cs') ∧ m.Extends this m' := by
  rw [constructorDuplicate_eq found] at copied
  exact copyMembers_frame frames pushVar old copied

theorem sequenceDuplicate_class (found : m.lookup rhs = some v)
    (copied : sequenceDuplicate duplicate m this rhs = .ok m') :
    ∃ state vars values, v.contents = .sequence state vars values := by
  unfold sequenceDuplicate at copied
  rw [fetch_of_lookup found] at copied
  simp only [bind, Except.bind] at copied
  split at copied
  · exact ⟨_, _, _, by assumption⟩
  · cases copied

theorem gridDuplicate_class (found : m.lookup rhs = some v)
    (copied : gridDuplicate duplicate m this rhs = .ok m') :
    ∃ vars array mapVars, v.contents = .grid vars (some array) mapVars := by
  unfold gridDuplicate at copied
  rw [fetch_of_lookup found] at copied
  simp only [bind, Except.bind] at copied
  split at copied
  · exact ⟨_, _, _, by assumption⟩
  · cases copied

/-- The fields that `Sequence::m_duplicate` copies, then the members and the rows. -/
theorem sequenceDuplicate_frame (frames : Frames duplicate)
    (old : this < m.size) (found : m.lookup rhs = some v)
    (copied : sequenceDuplicate duplicate m this rhs = .ok m') :
    ∃ state vars values cs' rows', v.contents = .sequence state vars values ∧
      cs'.length = vars.length ∧ rows'.length = values.length ∧
      m'.lookup this =
        (m.lookup this).map (fun w => pushRows rows' (pushAll pushVar cs' (setState state w))) ∧
      m.Extends this m' := by
  obtain ⟨state, vars, values, class_v⟩ := sequenceDuplicate_class found copied
  unfold sequenceDuplicate at copied
  rw [fetch_of_lookup found] at copied
  simp only [class_v, bind, Except.bind] at copied
  obtain ⟨m₁, members, rows⟩ := bind_success copied
  have set : m.Extends this (m.modify this (setState state)) := .modify m this _
  obtain ⟨cs', count, _, final, kept⟩ :=
    copyMembers_frame frames pushVar (by simpa using old) members
  obtain ⟨rows', count', final', kept'⟩ :=
    copyRows_frame frames (Nat.lt_of_lt_of_le old (set.trans kept).grows) rows
  refine ⟨state, vars, values, cs', rows', class_v, count, count', ?_,
    (set.trans kept).trans kept'⟩
  rw [final', final, Heap.lookup_modify_same, Option.map_map, Option.map_map]
  rfl

/-- `d_vars` is cleared, but `d_map_vars` only gets more maps. -/
theorem gridDuplicate_frame (frames : Frames duplicate)
    (old : this < m.size) (found : m.lookup rhs = some v)
    (copied : gridDuplicate duplicate m this rhs = .ok m') :
    ∃ vars array mapVars array' cs', v.contents = .grid vars (some array) mapVars ∧
      cs'.length = mapVars.length ∧ NewObjects m' m.size (array' :: cs') ∧
      m'.lookup this =
        (m.lookup this).map (fun w => pushAll pushMap cs' (setArray array' w)) ∧
      m.Extends this m' := by
  obtain ⟨vars, array, mapVars, class_v⟩ := gridDuplicate_class found copied
  rw [gridDuplicate_eq found class_v] at copied
  obtain ⟨m₁, first, rest⟩ := bind_success copied
  obtain ⟨as', one, news, final, kept⟩ := copyMembers_frame frames setArray old first
  obtain ⟨array', rfl⟩ := List.length_eq_one_iff.mp one
  obtain ⟨cs', count, news', final', kept'⟩ :=
    copyMembers_frame frames pushMap (Nat.lt_of_lt_of_le old kept.grows) rest
  obtain ⟨w, there⟩ := news.there array' (by simp)
  have below := Heap.lt_of_lookup there
  have fresh := news.fresh array' (by simp)
  refine ⟨vars, array, mapVars, array', cs', class_v, count, ⟨?_, ?_, ?_⟩, ?_,
    kept.trans kept'⟩
  · intro c mem
    cases mem with
    | head => exact fresh
    | tail _ later => exact Nat.le_trans kept.grows (news'.fresh c later)
  · intro c mem
    cases mem with
    | head => exact ⟨w, (kept'.lookup below (by omega)).trans there⟩
    | tail _ later => exact news'.there c later
  · refine .cons ?_ news'.increasing
    intro c later
    exact Nat.lt_of_lt_of_le below (news'.fresh c later)
  · rw [final', final, Option.map_map]
    rfl

theorem copyTemplate_frame (frames : Frames duplicate) {template template' : Option Nat}
    (copied : copyTemplate duplicate m this template = .ok (template', m')) :
    m.Extends m.size m' := by
  cases template with
  | none =>
    cases copied
    exact .refl _ _
  | some var =>
    obtain ⟨⟨var', m₁⟩, made, same⟩ := bind_success copied
    cases same
    obtain ⟨fresh, _, kept⟩ := frames m var var' m₁ made
    exact kept.trans_fresh (.modify m₁ var' _) fresh

theorem copyElements_frame (frames : Frames duplicate) {length : Int}
    {elements elements' : List Nat}
    (copied : copyElements duplicate m length elements = .ok (elements', m')) :
    m.Extends m.size m' := by
  unfold copyElements at copied
  split at copied
  · cases copied
    exact .refl _ _
  · split at copied
    · exact (copyValues_frame frames copied).2
    · cases copied

theorem arrayDuplicate_frame (frames : Frames duplicate) (own : m.lookup this = some v)
    (copied : arrayDuplicate duplicate m this rhs = .ok m') :
    (∃ w, m'.lookup this = some w) ∧ m.Extends this m' := by
  have old := Heap.lt_of_lookup own
  obtain ⟨source, _, rest⟩ := bind_success copied
  split at rest
  · obtain ⟨⟨template', m₁⟩, first, rest⟩ := bind_success rest
    obtain ⟨⟨elements', m₂⟩, second, rest⟩ := bind_success rest
    obtain ⟨buf', _, same⟩ := bind_success rest
    cases same
    have kept := copyTemplate_frame frames first
    have kept' := copyElements_frame frames second
    have old₁ := Nat.lt_of_lt_of_le old kept.grows
    have changed : ∀ f, (m₂.modify this f).lookup this = some (f v) := by
      intro f
      rw [Heap.lookup_modify_same, kept'.lookup old₁ (Nat.ne_of_lt old₁),
        kept.lookup old (Nat.ne_of_lt old), own]
      rfl
    exact ⟨⟨_, changed _⟩, ((kept.any this).trans (kept'.any this)).trans (.modify m₂ this _)⟩
  · cases rest

/-- The new object stays where it was put, and nothing else was there before. -/
theorem ptrDuplicate_frames (n : Nat) : Frames (ptrDuplicate n) := by
  induction n with
  | zero =>
    intro m c c' m' made
    cases made
  | succ n ih =>
    intro m rhs c' m' made
    obtain ⟨v, fetched, rest⟩ := bind_success made
    obtain ⟨m'', built, same⟩ := bind_success rest
    cases same
    have found := fetch_success fetched
    generalize hm : m.alloc (some v.blank) = m₁ at built
    have kept : m.Extends m.size m₁ := hm ▸ .alloc m _ m.size
    have own : m₁.lookup m.size = some v.blank := by
      rw [← hm]
      exact Heap.lookup_alloc_new m _
    have old := Heap.lt_of_lookup own
    have found₁ : m₁.lookup rhs = some v :=
      (kept.lookup (Heap.lt_of_lookup found) (Nat.ne_of_lt (Heap.lt_of_lookup found))).trans found
    have later : (∃ w, m'.lookup m.size = some w) ∧ m₁.Extends m.size m' := by
      cases class_v : v.contents with
      | simple value =>
        rw [class_v] at built
        cases built
        exact ⟨⟨_, own⟩, .refl _ _⟩
      | array dims template type elements strings buf capacity =>
        rw [class_v] at built
        exact arrayDuplicate_frame ih own built
      | «structure» vars =>
        rw [class_v] at built
        obtain ⟨cs', _, _, final, kept'⟩ := constructorDuplicate_frame ih old found₁ built
        exact ⟨⟨_, by rw [final, own]; rfl⟩, kept'⟩
      | sequence state vars values =>
        rw [class_v] at built
        obtain ⟨_, _, _, cs', rows', _, _, _, final, kept'⟩ :=
          sequenceDuplicate_frame ih old found₁ built
        exact ⟨⟨_, by rw [final, own]; rfl⟩, kept'⟩
      | grid vars arrayVar mapVars =>
        rw [class_v] at built
        obtain ⟨_, _, _, array', cs', _, _, _, final, kept'⟩ :=
          gridDuplicate_frame ih old found₁ built
        exact ⟨⟨_, by rw [final, own]; rfl⟩, kept'⟩
    exact ⟨Nat.le_refl _, later.1, kept.trans later.2⟩

end Libdap.Guarantees.DuplicateFrame
