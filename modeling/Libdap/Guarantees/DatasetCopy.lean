import Libdap.Guarantees.DuplicateFrame
import Libdap.Source.Dataset

/-!
# Copying a DDS

`duplicate` copies the container pointer before the variables. Without a container, its
loop is the one that copies values; with one, the new variables go to the container of
the source, and the copy keeps pointing there.
-/
namespace Libdap.Guarantees.DatasetCopy
open Libdap.Library Libdap.Source Libdap.Source.Variables Libdap.Source.Dataset
open PtrDuplicate DuplicateFrame

variable {depth : Nat} {m m' : Memory} {dds dds' rhs : DDS}

/-- A result of copying `rhs`: its variables are deep copies, in new objects, of those of
`rhs`, and its attributes are the same; its container is a Structure of its own with the name
of the container; and `rhs` is as before. -/
def DatasetCopied (depth : Nat) (m : Memory) (rhs : DDS)
    (copied : Except Failure (Memory × DDS)) : Prop :=
  ∃ m' dds', copied = .ok (m', dds') ∧
    List.Forall₂ (layout.Alike m m' depth) rhs.vars dds'.vars ∧
    (∀ c ∈ dds'.vars, ∀ b, layout.Reaches m' c b → m.size ≤ b) ∧
    dds'.attr = rhs.attr ∧ (dds'.container.isSome = rhs.container.isSome) ∧
    (∀ s, dds'.container = some s → ∃ c ∈ dds'.vars, layout.Reaches m' c s ∧
      ∃ v, m'.lookup s = some v ∧ v.base.name = rhs.containerName) ∧
    ∀ c ∈ rhs.vars, ∀ b, layout.Reaches m c b → m'.lookup b = m.lookup b

theorem addVar_container {bt : Nat} (added : DDS.addVar depth m dds bt = .ok (m', dds')) :
    dds'.container = dds.container := by
  obtain ⟨⟨btp, m₁⟩, _, rest⟩ := bind_success added
  cases atContainer : dds.container with
  | none =>
    simp only [atContainer] at rest
    cases rest
    rfl
  | some container =>
    simp only [atContainer] at rest
    obtain ⟨_, _, rest⟩ := bind_success rest
    obtain ⟨_, _, rest⟩ := bind_success rest
    obtain ⟨_, _, rest⟩ := bind_success rest
    cases rest
    exact atContainer

theorem duplicate_container (copied : DDS.duplicate depth m dds rhs = .ok (m', dds')) :
    dds'.container = rhs.container := by
  have kept := foldlM_keeps (P := fun s s' : Memory × DDS => s'.2.container = s.2.container)
    (fun _ => rfl)
    (fun s bt s' s'' step later => later.trans (addVar_container step)) copied
  exact kept

theorem addVar_eq (none_set : dds.container = none) (bt : Nat) :
    DDS.addVar depth m dds bt = (ptrDuplicate depth m bt).map fun copy =>
      (copy.2, { dds with vars := dds.vars ++ [copy.1] }) := by
  cases dds with
  | mk factory name filename containerName container =>
    change container = none at none_set
    subst none_set
    unfold DDS.addVar
    cases ptrDuplicate depth m bt <;> rfl

/-- The loop of `duplicate` when no container is set. -/
theorem addVars_eq (none_set : dds.container = none) (cs : List Nat) :
    cs.foldlM (fun (s : Memory × DDS) bt => DDS.addVar depth s.1 s.2 bt) (m, dds) =
      (copyValues (ptrDuplicate depth) m cs).map fun s =>
        (s.2, { dds with vars := dds.vars ++ s.1 }) := by
  induction cs generalizing m dds with
  | nil => simp [copyValues, Except.map, pure, Except.pure]
  | cons c cs ih =>
    rw [List.foldlM_cons, addVar_eq none_set, copyValues]
    cases ptrDuplicate depth m c with
    | error failure => rfl
    | ok copy =>
      have rest := @ih copy.2 { dds with vars := dds.vars ++ [copy.1] } none_set
      apply rest.trans
      change _ = (Except.map _ (copyValues (ptrDuplicate depth) copy.2 cs >>= _))
      cases copyValues (ptrDuplicate depth) copy.2 cs with
      | error failure => rfl
      | ok others => simp [Except.map, bind, Except.bind, pure, Except.pure]

theorem duplicate_eq (none_set : rhs.container = none) :
    DDS.duplicate depth m dds rhs =
      (copyValues (ptrDuplicate depth) m rhs.vars).map fun s =>
        (s.2, { rhs with attr := copyAttr rhs.attr, vars := dds.vars ++ s.1 }) :=
  @addVars_eq depth m { rhs with attr := copyAttr rhs.attr, vars := dds.vars } none_set rhs.vars

theorem duplicate_copied_iff (dds : DDS) (plain : IsPlainTable rhs.attr)
    (whole : ∀ c ∈ rhs.vars, Whole m depth c)
    (live : ∀ s, rhs.container = some s → s < m.size) :
    DatasetCopied depth m rhs (DDS.duplicate depth m dds rhs) ↔
      rhs.container = none ∧ dds.vars = [] := by
  constructor
  · rintro ⟨m', dds', copied, alike, own, _, _, container, _⟩
    have same := duplicate_container copied
    have none_set : rhs.container = none := by
      cases atContainer : rhs.container with
      | none => rfl
      | some s =>
        obtain ⟨c, mem, reached, _⟩ := container s (same.trans atContainer)
        exact absurd (live s atContainer) (Nat.not_lt.mpr (own c mem s reached))
    refine ⟨none_set, ?_⟩
    rw [duplicate_eq none_set] at copied
    cases values : copyValues (ptrDuplicate depth) m rhs.vars with
    | error failure => simp [values, Except.map] at copied
    | ok result =>
      obtain ⟨cs', m₁⟩ := result
      simp only [values, Except.map, Except.ok.injEq, Prod.mk.injEq] at copied
      obtain ⟨rfl, rfl⟩ := copied
      have count := (copyValues_frame (ptrDuplicate_frames depth) values).1
      have lengths := alike.length_eq
      rw [List.length_append] at lengths
      exact List.length_eq_zero_iff.mp (by omega)
  · rintro ⟨none_set, empty⟩
    obtain ⟨cs', m', values, copies, kept⟩ := copyValues_fresh (ptrDuplicate_copies m depth)
      (m := m) fun c mem => ⟨whole c mem, .refl m c⟩
    refine ⟨m', { rhs with vars := cs' }, ?_, ?_, ?_, rfl, rfl, ?_, ?_⟩
    · rw [duplicate_eq none_set, copyAttr_plain plain, values, empty]
      rfl
    · exact copies.imp fun _ _ pair => pair.2.alike
    · intro c' mem b reached
      obtain ⟨c, _, fresh, copy⟩ := Layout.partner copies mem
      cases copy.reached reached with
      | inl same => exact same ▸ fresh
      | inr below => exact below.1
    · intro s set
      rw [none_set] at set
      cases set
    · intro c mem b reached
      obtain ⟨v, there⟩ := (whole c mem).reached reached
      have old := Heap.lt_of_lookup there
      exact kept.lookup old (Nat.ne_of_lt old)

/-- Copy construction and assignment of a DDS, from a source with whole variables, attributes
that can be copied and a container, if any, that exists. -/
theorem datasetCopied_iff (depth : Nat) (m : Memory) (dds rhs : DDS)
    (plain : IsPlainTable rhs.attr) (whole : ∀ c ∈ rhs.vars, Whole m depth c)
    (live : ∀ s, rhs.container = some s → s < m.size) :
    (DatasetCopied depth m rhs (DDS.copy depth m rhs) ↔ rhs.container = none) ∧
      (DatasetCopied depth m rhs (DDS.duplicate depth m dds rhs) ↔
        rhs.container = none ∧ dds.vars = []) := by
  constructor
  · have copied := duplicate_copied_iff { rhs with vars := [] } plain whole live
    exact copied.trans (and_iff_left rfl)
  · exact duplicate_copied_iff dds plain whole live

def dataset (containerName : String) (container : Option Nat) (vars : List Nat) : DDS :=
  { factory := 0, name := "d", filename := "", containerName, container, dapMajor := 2,
    dapMinor := 0, dapVersion := "2.0", requestXmlBase := "", xmlNamespace := "", attr := [],
    vars, timeout := 0, keywords := [], maxResponseSize := 0 }

/-- A Structure `c` with nothing in it. -/
def oneStructure : Memory :=
  ⟨[some { base := { name := "c", type := .structure, dataset := "", isRead := false,
                     isSend := false, inSelection := false, isSynthesized := false,
                     attr := [] },
           parent := none, contents := .structure [] }]⟩

theorem oneStructure_whole : ∀ c ∈ [0], Whole oneStructure 1 c := by
  intro c mem
  cases List.mem_singleton.mp mem
  exact ⟨_, rfl, ⟨trivial, trivial⟩, by simp [layout, parts]⟩

theorem datasetCopied_iff_oneStructure :
    DatasetCopied 1 oneStructure (dataset "" none [0])
      (DDS.copy 1 oneStructure (dataset "" none [0])) :=
  (datasetCopied_iff 1 oneStructure (dataset "" none []) (dataset "" none [0])
    trivial oneStructure_whole (by intro s set; cases set)).1.mpr rfl

/-- With the container set, the copy has no variable, and the source's `c` contains a copy
of itself. -/
theorem datasetCopied_fails :
    (∀ c ∈ [0], Whole oneStructure 1 c) ∧
    ((DDS.copy 2 oneStructure (dataset "c" (some 0) [0])).toOption.map fun s =>
      (s.2.vars, (s.1.lookup 0).map (·.contents))) = some ([], some (.structure [2])) ∧
    ¬ DatasetCopied 1 oneStructure (dataset "c" (some 0) [0])
      (DDS.copy 1 oneStructure (dataset "c" (some 0) [0])) := by
  refine ⟨oneStructure_whole, by decide, ?_⟩
  intro copied
  have live : ∀ s, (dataset "c" (some 0) [0]).container = some s → s < oneStructure.size := by
    intro s set
    cases set
    decide
  have plain : IsPlainTable (dataset "c" (some 0) [0]).attr := trivial
  have none_set := ((duplicate_copied_iff _ plain oneStructure_whole live).mp copied).1
  cases none_set

end Libdap.Guarantees.DatasetCopy
