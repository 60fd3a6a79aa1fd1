import Mathlib.Tactic
import Libdap.Library.Outcome
import Libdap.Source.ResponseCache

/-!
# Whose result a cached response is

The name of a cache file is the dataset's name, `#` and the function clause, with some
characters overwritten by `#`. Two requests share a file exactly when the texts so joined
differ in such characters only; a request that shares its file with another one is
answered with the other's result.
-/
namespace Libdap.Guarantees.ResponseCache
open Libdap.Library
open Libdap.Source Libdap.Source.ResponseCache

/-! ## The name that is built -/

/-- The loop has nothing left to do but overwrite these. -/
def overwrite (c : Char) : Char := if laterSpecial.contains c then '#' else c

theorem overwrite_hash : overwrite '#' = '#' := by decide

theorem findFirstOf_some {special name : Chars} {pos : Nat}
    (found : findFirstOf special name = some pos) :
    ∃ c, name[pos]? = some c ∧ special.contains c = true ∧
      ∀ c' ∈ name.take pos, special.contains c' = false := by
  unfold findFirstOf at found
  rw [List.findIdx?_eq_some_iff_getElem] at found
  rcases found with ⟨room, here, before⟩
  refine ⟨name[pos], List.getElem?_eq_getElem room, here, fun c' taken => ?_⟩
  rcases List.mem_iff_getElem.mp taken with ⟨i, bound, rfl⟩
  rw [List.getElem_take]
  rw [List.length_take] at bound
  simpa using before i (by omega)

theorem findFirstOf_none {special name : Chars} (found : findFirstOf special name = none) :
    ∀ c ∈ name, special.contains c = false := by
  unfold findFirstOf at found
  rw [List.findIdx?_eq_none_iff] at found
  exact found

/-- Overwriting one of the characters first changes nothing in the end. -/
theorem map_overwrite_set {name : Chars} {pos : Nat} {c : Char} (here : name[pos]? = some c)
    (special : laterSpecial.contains c = true) :
    (name.set pos '#').map overwrite = name.map overwrite := by
  have done : overwrite c = '#' := if_pos special
  rw [List.map_set, overwrite_hash, ← done]
  refine List.ext_getElem? fun i => ?_
  rw [List.getElem?_set, List.length_map]
  split
  · next same =>
      subst same
      have room : pos < name.length := (List.getElem?_eq_some_iff.mp here).1
      rw [if_pos room, List.getElem?_map, here]
      rfl
  · rfl

theorem countP_set {name : Chars} {pos : Nat} {c : Char} (here : name[pos]? = some c)
    (special : laterSpecial.contains c = true) :
    (name.set pos '#').countP (fun c => laterSpecial.contains c) + 1 =
      name.countP fun c => laterSpecial.contains c := by
  obtain ⟨room, value⟩ := List.getElem?_eq_some_iff.mp here
  have some_special : 0 < name.countP fun c => laterSpecial.contains c :=
    List.countP_pos_iff.mpr ⟨c, value ▸ List.getElem_mem room, special⟩
  have hash : laterSpecial.contains '#' = false := by decide
  rw [List.countP_set room]
  simp only [value, special, hash, if_true, Bool.false_eq_true, if_false]
  omega

/-- The loop ends, with every character it looks for overwritten. -/
theorem replaceLoop_eq {fuel : Nat} {name : Chars}
    (enough : (name.countP fun c => laterSpecial.contains c) + 1 ≤ fuel) :
    replaceLoop fuel name (findFirstOf laterSpecial name) = .ok (name.map overwrite) := by
  induction fuel generalizing name with
  | zero => omega
  | succ fuel ih =>
    cases found : findFirstOf laterSpecial name with
    | none =>
      have plain := findFirstOf_none found
      have same : name.map overwrite = name := by
        refine (List.map_congr_left fun c member => ?_).trans name.map_id
        rw [overwrite, plain c member]
        rfl
      rw [replaceLoop, same]
    | some pos =>
      rcases findFirstOf_some found with ⟨c, here, special, -⟩
      have fewer := countP_set here special
      rw [replaceLoop, ih (by omega), map_overwrite_set here special]

/-- The character at `i` is overwritten: it is one of the loop's, or a comma before
which there is no special character. -/
def replaced (name : Chars) (i : Nat) : Bool :=
  match name[i]? with
  | none => false
  | some c =>
    laterSpecial.contains c || (c == ',' && !(name.take i).any fun c => firstSpecial.contains c)

def builtName (name : Chars) : Chars :=
  match findFirstOf firstSpecial name with
  | none => name
  | some pos => (name.set pos '#').map overwrite

theorem buildCacheFileName_eq (dataset ce : Chars) :
    buildCacheFileName dataset ce = .ok (builtName (dataset ++ '#' :: ce)) := by
  unfold buildCacheFileName builtName
  dsimp only
  cases findFirstOf firstSpecial (dataset ++ '#' :: ce) with
  | none => rfl
  | some pos =>
    rw [replaceLoop]
    apply replaceLoop_eq
    have most := List.countP_le_length (l := (dataset ++ '#' :: ce).set pos '#')
      (p := fun c => laterSpecial.contains c)
    rw [List.length_set] at most
    omega

theorem contains_first (c : Char) :
    firstSpecial.contains c = (laterSpecial.contains c || c == ',') := by
  simp only [firstSpecial, laterSpecial, List.contains_cons, List.contains_nil, Bool.or_false]
  cases c == '/' <;> cases c == '(' <;> cases c == ')' <;> cases c == ',' <;> cases c == '"' <;>
    cases c == '\'' <;> rfl

theorem builtName_getElem? (name : Chars) (i : Nat) :
    (builtName name)[i]? = if replaced name i then some '#' else name[i]? := by
  unfold builtName
  cases found : findFirstOf firstSpecial name with
  | none =>
    have plain := findFirstOf_none found
    have kept : replaced name i = false := by
      unfold replaced
      cases here : name[i]? with
      | none => rfl
      | some c =>
        have ordinary := plain c (List.mem_of_getElem? here)
        rw [contains_first, Bool.or_eq_false_iff] at ordinary
        simp only [ordinary.1, ordinary.2, Bool.false_and, Bool.or_false]
    rw [kept]
    rfl
  | some pos =>
    rcases findFirstOf_some found with ⟨c, here, special, before⟩
    rw [List.getElem?_map, List.getElem?_set]
    by_cases same : pos = i
    · subst same
      have room : pos < name.length := (List.getElem?_eq_some_iff.mp here).1
      have none_before : (name.take pos).any (fun c => firstSpecial.contains c) = false := by
        rw [List.any_eq_false]
        intro c' taken
        rw [before c' taken]
        exact Bool.false_ne_true
      have overwritten : replaced name pos = true := by
        unfold replaced
        rw [here]
        simp only [none_before, Bool.not_false, Bool.and_true]
        rw [← contains_first]
        exact special
      rw [if_pos rfl, if_pos room, if_pos overwritten]
      rfl
    · rw [if_neg same]
      cases at_i : name[i]? with
      | none =>
        have kept : replaced name i = false := by
          unfold replaced
          rw [at_i]
        rw [kept]
        rfl
      | some c' =>
        have shape : replaced name i = laterSpecial.contains c' := by
          unfold replaced
          rw [at_i]
          dsimp only
          -- A comma further on has the first special character before it.
          have no_comma : (c' == ',' && !(name.take i).any fun c => firstSpecial.contains c) =
              false := by
            rw [Bool.and_eq_false_iff]
            by_cases early : i < pos
            · left
              have ordinary := before c' (List.mem_of_getElem? (i := i) (by
                rw [List.getElem?_take, if_pos early]
                exact at_i))
              rw [contains_first, Bool.or_eq_false_iff] at ordinary
              exact ordinary.2
            · right
              have seen : (name.take i).any (fun c => firstSpecial.contains c) = true := by
                rw [List.any_eq_true]
                refine ⟨c, List.mem_of_getElem? (i := pos) ?_, special⟩
                rw [List.getElem?_take, if_pos (by omega)]
                exact here
              rw [seen]
              rfl
          rw [no_comma, Bool.or_false]
        rw [shape, Option.map_some, overwrite]
        split <;> rfl

/-! ## Texts that collide -/

/-- The built name has `#` at `i`. -/
def HashAt (name : Chars) (i : Nat) : Prop := name[i]? = some '#' ∨ replaced name i = true

/-- At each position both texts give `#`, or neither does and both have one character. -/
def Collide (s t : Chars) : Prop :=
  ∀ i, (HashAt s i ↔ HashAt t i) ∧ (¬ HashAt s i → s[i]? = t[i]?)

theorem hashAt_iff (name : Chars) (i : Nat) :
    HashAt name i ↔ (builtName name)[i]? = some '#' := by
  rw [builtName_getElem?, HashAt]
  by_cases given : replaced name i = true
  · simp [given]
  · simp [given]

theorem builtName_plain {name : Chars} {i : Nat} (plain : ¬ HashAt name i) :
    (builtName name)[i]? = name[i]? := by
  have kept : replaced name i = false := Bool.eq_false_iff.mpr fun given => plain (.inr given)
  rw [builtName_getElem?, kept]
  rfl

theorem builtName_eq_iff (s t : Chars) : builtName s = builtName t ↔ Collide s t := by
  constructor
  · intro same i
    have hash : HashAt s i ↔ HashAt t i := by rw [hashAt_iff, hashAt_iff, same]
    refine ⟨hash, fun plain => ?_⟩
    have plain' : ¬ HashAt t i := fun given => plain (hash.mpr given)
    rw [← builtName_plain plain, ← builtName_plain plain', same]
  · intro alike
    refine List.ext_getElem? fun i => ?_
    by_cases given : HashAt s i
    · rw [(hashAt_iff s i).mp given, (hashAt_iff t i).mp ((alike i).1.mp given)]
    · have other : ¬ HashAt t i := fun given' => given ((alike i).1.mpr given')
      rw [builtName_plain given, builtName_plain other, (alike i).2 given]

def Request.text (r : Request) : Chars := r.dataset ++ '#' :: r.constraint

theorem fileName_eq (d : Directory) (r : Request) :
    d.fileName r = .ok (d.getCacheFileName (builtName (Request.text r))) := by
  rw [Directory.fileName, buildCacheFileName_eq]
  rfl

theorem getCacheFileName_inj (d : Directory) {s t : Chars}
    (same : d.getCacheFileName s = d.getCacheFileName t) : s = t := by
  simpa [Directory.getCacheFileName] using same

theorem fileName_eq_iff (d : Directory) (p q : Request) :
    d.fileName p = d.fileName q ↔ Collide (Request.text p) (Request.text q) := by
  rw [fileName_eq, fileName_eq, ← builtName_eq_iff, Except.ok.injEq]
  exact ⟨getCacheFileName_inj d, congrArg d.getCacheFileName⟩

/-! ## Runs -/

variable {d : Directory} {modified : Chars → Option Int}

/-- Each file with a result holds one of a request among these that has its name. -/
def Owned (d : Directory) (requests : Request → Prop) (files : Files) : Prop :=
  ∀ name entry r, files name = some entry → entry.result = some r →
    requests r ∧ d.fileName r = .ok name

theorem owned_empty (requests : Request → Prop) : Owned d requests fun _ => none := by
  intro name entry r present
  cases present

theorem owned_purge {requests : Request → Prop} {files : Files} (owned : Owned d requests files)
    (name : Chars) : Owned d requests (purgeFile files name) := by
  intro n entry r present
  unfold purgeFile at present
  split at present
  · cases present
  · exact owned n entry r present

/-- One call: the directory stays owned, and the answer comes from a request that has the
same file name. -/
theorem readCachedDataset_owned {requests : Request → Prop} {files files' : Files} {c : Call}
    {answer : Option Request} (owned : Owned d requests files) (mine : requests c.request)
    (answered : readCachedDataset d modified files c = .ok (files', answer)) :
    Owned d requests files' ∧
      ∀ r, answer = some r → requests r ∧ d.fileName r = d.fileName c.request := by
  unfold readCachedDataset at answered
  rcases bind_success answered with ⟨name, named, answered⟩
  dsimp only at answered
  have kept : Owned d requests (if isValid modified files name c.request.dataset then files
      else purgeFile files name) := by
    split
    · exact owned
    · exact owned_purge owned name
  generalize (if isValid modified files name c.request.dataset then files
      else purgeFile files name) = present at answered kept
  rw [named]
  split at answered
  · next entry found =>
      cases answered
      exact ⟨kept, fun r result => kept name entry r found result⟩
  · split at answered
    · cases answered
      refine ⟨fun n entry r there result => ?_, fun r none => nomatch none⟩
      dsimp only at there
      split at there
      · cases there
        cases result
      · exact kept n entry r there result
    · cases answered
      refine ⟨fun n entry r there result => ?_, fun r own => ?_⟩
      · dsimp only at there
        split at there
        · next same =>
            cases there
            cases result
            exact ⟨mine, same ▸ named⟩
        · split at there
          · cases there
          · exact kept n entry r there result
      · cases own
        exact ⟨mine, named⟩

theorem readCachedDataset_returns (d : Directory) (modified : Chars → Option Int) (files : Files)
    (c : Call) : ∃ files' answer, readCachedDataset d modified files c = .ok (files', answer) := by
  unfold readCachedDataset
  simp only [fileName_eq, bind, Except.bind]
  split
  · exact ⟨_, _, rfl⟩
  · split <;> exact ⟨_, _, rfl⟩

/-- An answer is the result of a request that has the call's file name. -/
def FromSameFile (d : Directory) (requests : Request → Prop) (c : Call)
    (answer : Option Request) : Prop :=
  ∀ r, answer = some r → requests r ∧ d.fileName r = d.fileName c.request

theorem readAll_sameFile {requests : Request → Prop} {files : Files} (calls : List Call)
    (owned : Owned d requests files) (mine : ∀ c ∈ calls, requests c.request) :
    ∃ answers, readAll d modified files calls = .ok answers ∧
      List.Forall₂ (FromSameFile d requests) calls answers := by
  induction calls generalizing files with
  | nil => exact ⟨[], rfl, .nil⟩
  | cons c calls ih =>
    rcases readCachedDataset_returns d modified files c with ⟨files', answer, answered⟩
    have first := readCachedDataset_owned owned (mine c (List.mem_cons_self ..)) answered
    rcases ih first.1 fun c member => mine c (List.mem_cons_of_mem _ member) with
      ⟨answers, rest, same⟩
    refine ⟨answer :: answers, ?_, .cons first.2 same⟩
    rw [readAll, answered]
    simp only [bind, Except.bind, rest]
    rfl

def OwnAnswer (c : Call) (answer : Option Request) : Prop := ∀ r, answer = some r → r = c.request

/-- Names are built, different requests have different ones, and in every run of calls for
these requests no call returns the result of another. -/
def KeepsApart (d : Directory) (requests : Request → Prop) : Prop :=
  (∀ p, requests p → ∃ name, d.fileName p = .ok name) ∧
  (∀ p q, requests p → requests q → p ≠ q → d.fileName p ≠ d.fileName q) ∧
  ∀ (modified : Chars → Option Int) (calls : List Call), (∀ c ∈ calls, requests c.request) →
    ∃ answers, readAll d modified (fun _ => none) calls = .ok answers ∧
      List.Forall₂ OwnAnswer calls answers

/-- Requests are kept apart exactly when no two of them have texts that collide. -/
theorem keepsApart_iff (d : Directory) (requests : Request → Prop) :
    KeepsApart d requests ↔ ∀ p q, requests p → requests q → p ≠ q →
      ¬ Collide (Request.text p) (Request.text q) := by
  constructor
  · rintro ⟨_, apart, _⟩ p q ours ours' different collide
    exact apart p q ours ours' different ((fileName_eq_iff d p q).mpr collide)
  · intro apart
    have names : ∀ p q, requests p → requests q → d.fileName p = d.fileName q → p = q := by
      intro p q ours ours' same
      by_contra different
      exact apart p q ours ours' different ((fileName_eq_iff d p q).mp same)
    refine ⟨fun p _ => ⟨_, fileName_eq d p⟩, fun p q ours ours' different same =>
      different (names p q ours ours' same), fun modified calls mine => ?_⟩
    have answered : ∃ answers, readAll d modified (fun _ => none) calls = .ok answers ∧
        List.Forall₂ (FromSameFile d requests) calls answers :=
      readAll_sameFile calls (owned_empty requests) mine
    rcases answered with ⟨answers, read, same⟩
    refine ⟨answers, read, ?_⟩
    rw [List.forall₂_iff_get] at same ⊢
    refine ⟨same.1, fun i bound bound' r answer => ?_⟩
    rcases same.2 i bound bound' r answer with ⟨ours, file⟩
    exact names r _ ours (mine _ (List.get_mem ..)) file

/-- A call that computes its result at time `now`. -/
def callFor (request : Request) (now : Int) : Call :=
  { request, raises := false, size := 1, now, purged := fun _ => false }

/-- Of two requests with one file the second is answered with the result of the first. -/
theorem answered_with_other {p q : Request} (collide : Collide (Request.text p) (Request.text q)) :
    readAll d (fun _ => none) (fun _ => none) [callFor p 0, callFor q 1] =
      .ok [some p, some p] := by
  have same : builtName (Request.text p) = builtName (Request.text q) :=
    (builtName_eq_iff _ _).mpr collide
  simp [readAll, readCachedDataset, fileName_eq, same, isValid, purgeFile, callFor, bind,
    Except.bind, pure, Except.pure]

/-- The files /a/b and /a#b under one function clause. -/
def slashed : Request := ⟨['/', 'a', '/', 'b'], ['f', '(', 'u', ')']⟩

def hashed : Request := ⟨['/', 'a', '#', 'b'], ['f', '(', 'u', ')']⟩

theorem keepsApart_fails : ¬ KeepsApart ⟨['/', 't', 'm', 'p'], ['d']⟩ fun r =>
    r = slashed ∨ r = hashed := by
  rintro ⟨_, apart, _⟩
  apply apart slashed hashed (.inl rfl) (.inr rfl) (by decide)
  rfl

end Libdap.Guarantees.ResponseCache
