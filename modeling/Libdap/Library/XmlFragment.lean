import Mathlib.Data.List.Infix
import Mathlib.Tactic

/-!
# Fragments of XML

What a text stands for as the content of an element: characters, and elements with what stands
in their start tags. Declarations of namespaces are the attributes `xmlns` and those with the
prefix `xmlns`. Only texts without references, comments, sections and instructions are read
here, in which a character stands for itself.
-/
namespace Libdap.Library.XmlFragment

/-! ## Characters and names -/

/-- The characters that a document may have. -/
def legal (c : Char) : Bool :=
  c = '\t' || c = '\n' || c = '\r' ||
    (32 ≤ c.toNat && c.toNat ≠ 0xFFFE && c.toNat ≠ 0xFFFF)

/-- The first characters of a name. -/
def nameStart (c : Char) : Bool :=
  c.isAlpha || c = '_' ||
    [(0xC0, 0xD6), (0xD8, 0xF6), (0xF8, 0x2FF), (0x370, 0x37D), (0x37F, 0x1FFF),
      (0x200C, 0x200D), (0x2070, 0x218F), (0x2C00, 0x2FEF), (0x3001, 0xD7FF), (0xF900, 0xFDCF),
      (0xFDF0, 0xFFFD), (0x10000, 0xEFFFF)].any fun r => r.1 ≤ c.toNat && c.toNat ≤ r.2

def nameChar (c : Char) : Bool :=
  nameStart c || c.isDigit || c = '-' || c = '.' || c.toNat = 0xB7 ||
    (0x300 ≤ c.toNat && c.toNat ≤ 0x36F) || (0x203F ≤ c.toNat && c.toNat ≤ 0x2040)

def IsNCName (name : List Char) : Prop :=
  ∃ c rest, name = c :: rest ∧ nameStart c = true ∧ ∀ d ∈ rest, nameChar d = true

/-- No prefix is the empty one. -/
structure QName where
  pre : List Char
  name : List Char
  deriving DecidableEq, Repr

namespace QName

def text (q : QName) : List Char := if q.pre = [] then q.name else q.pre ++ ':' :: q.name

def Valid (q : QName) : Prop := (q.pre = [] ∨ IsNCName q.pre) ∧ IsNCName q.name

end QName

/-! ## What stands in a start tag -/

structure Spec where
  name : QName
  value : List Char
  deriving DecidableEq, Repr

namespace Spec

def text (spec : Spec) : List Char :=
  ' ' :: spec.name.text ++ '=' :: '"' :: spec.value ++ ['"']

def Valid (spec : Spec) : Prop := spec.name.Valid ∧ ∀ c ∈ spec.value, legal c = true

/-- The characters of the value stand for themselves: spaces would be read for tabs and line
ends. -/
def Plain (spec : Spec) : Prop :=
  ∀ c ∈ spec.value, c ∉ ['<', '&', '"', '\t', '\n', '\r']

end Spec

/-! ## Content -/

inductive Node where
  | char (c : Char)
  | element (name : QName) (specs : List Spec) (content : List Node)

mutual

def Node.Valid : Node → Prop
  | .char c => legal c = true
  | .element name specs content =>
    name.Valid ∧ (∀ spec ∈ specs, spec.Valid) ∧ (specs.map Spec.name).Nodup ∧ AllValid content

def AllValid : List Node → Prop
  | [] => True
  | n :: ns => n.Valid ∧ AllValid ns

end

def sectionEnd : List Char := [']', ']', '>']

/-- A line end that is a carriage return would be read as another one. -/
def plain (c : Char) : Bool := c ∉ ['<', '&', '\r']

/-- The order in a start tag says nothing. -/
inductive Reads : List Char → List Node → Prop
  | nil : Reads [] []
  | char {c : Char} {t : List Char} {ns : List Node} (is_legal : legal c = true)
      (is_plain : plain c = true) (no_end : ¬sectionEnd <+: c :: t) (rest : Reads t ns) :
      Reads (c :: t) (.char c :: ns)
  | element {name : QName} {specs written : List Spec} {inner t : List Char}
      {content ns : List Node} (valid : name.Valid)
      (specs_valid : ∀ spec ∈ specs, spec.Valid ∧ spec.Plain)
      (distinct : (specs.map Spec.name).Nodup) (order : written.Perm specs)
      (inside : Reads inner content) (rest : Reads t ns) :
      Reads ('<' :: name.text ++ written.flatMap Spec.text ++ '>' :: inner ++
        '<' :: '/' :: name.text ++ '>' :: t) (.element name specs content :: ns)

/-- No characters side by side are read as the end of a section. -/
def NoSectionEnd (ns : List Node) : Prop := ¬sectionEnd.map Node.char <:+: ns

theorem NoSectionEnd.of_append (before : List Node) {after : List Node}
    (none : NoSectionEnd (before ++ after)) : NoSectionEnd after :=
  fun found => none (found.trans (List.suffix_append before after).isInfix)

/-- What begins with a plain character. -/
theorem Reads.head {c : Char} {t : List Char} {ns : List Node} (reads : Reads (c :: t) ns)
    (other : c ≠ '<') : ∃ ns', ns = .char c :: ns' ∧ Reads t ns' := by
  generalize same : c :: t = text at reads
  cases reads with
  | nil => cases same
  | char is_legal is_plain no_end rest =>
    cases same
    exact ⟨_, rfl, rest⟩
  | element valid specs_valid distinct order inside rest =>
    simp only [List.cons_append, List.cons.injEq] at same
    exact absurd same.1 other

theorem Reads.prefix_nodes {s t : List Char} {ns : List Node} (reads : Reads (s ++ t) ns)
    (other : '<' ∉ s) : s.map Node.char <+: ns := by
  induction s generalizing ns with
  | nil => exact List.nil_prefix
  | cons c s ih =>
    rw [List.mem_cons, not_or] at other
    obtain ⟨ns', rfl, rest⟩ := reads.head (Ne.symm other.1)
    exact (List.prefix_cons_inj _).mpr (ih rest other.2)

/-- Characters in front of what was read. -/
theorem Reads.chars {ch t : List Char} {ns : List Node} (reads : Reads t ns)
    (legal_chars : ∀ c ∈ ch, legal c = true) (plain_chars : ∀ c ∈ ch, plain c = true)
    (none : NoSectionEnd (ch.map Node.char ++ ns)) : Reads (ch ++ t) (ch.map Node.char ++ ns) := by
  induction ch with
  | nil => exact reads
  | cons c ch ih =>
    have rest : Reads (ch ++ t) (ch.map Node.char ++ ns) := by
      apply ih (fun d member => legal_chars d (by simp [member]))
        (fun d member => plain_chars d (by simp [member]))
      exact NoSectionEnd.of_append [.char c] none
    apply Reads.char (legal_chars c (by simp)) (plain_chars c (by simp)) ?_ rest
    rintro ⟨after, same⟩
    rw [sectionEnd, List.cons_append] at same
    obtain ⟨rfl, tail_eq⟩ := List.cons.inj same
    rw [← tail_eq] at rest
    have found := Reads.prefix_nodes rest (by decide)
    exact none ((List.prefix_cons_inj _).mpr found).isInfix

theorem allValid_append {ns ns' : List Node} (valid : AllValid (ns ++ ns')) :
    AllValid ns ∧ AllValid ns' := by
  induction ns with
  | nil => exact ⟨trivial, valid⟩
  | cons n ns ih =>
    obtain ⟨first, rest⟩ := valid
    exact ⟨⟨first, (ih rest).1⟩, (ih rest).2⟩

theorem allValid_chars {ch : List Char} (valid : AllValid (ch.map Node.char)) :
    ∀ c ∈ ch, legal c = true := by
  induction ch with
  | nil => simp
  | cons c ch ih =>
    obtain ⟨first, rest⟩ := valid
    intro d member
    rcases List.mem_cons.mp member with rfl | inside
    · exact first
    · exact ih rest d inside

end Libdap.Library.XmlFragment
