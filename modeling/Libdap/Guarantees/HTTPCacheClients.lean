import Libdap.Source.HTTPCacheClients
import Libdap.Library.Runs

/-!
# Clients of the cache do not lock each other out

`cache_response` and `update_response` wait for the response lock of an entry behind the
interface lock, and `release_cached_response` needs the interface lock to give the
response lock back. The handlers of `get_cached_response` and `update_response` keep locks of
the entry for good. No other member waits for what a waiting client holds.
-/
namespace Libdap.Guarantees.HTTPCacheClients
open Libdap.Library.Runs
open Libdap.Source.HTTPCacheTable (Chars)
open Libdap.Source.HTTPCacheClients

/-! ## Exclusion and deadlock -/

def Blocked (s : State) (c : Client) (lock : Lock) : Prop :=
  s.wanted c = some lock ∧ s.held lock

/-- Clients that each wait for a lock which only clients among them can free. -/
def Deadlock (s : State) (clients : Client → Prop) : Prop :=
  (∃ c, clients c) ∧
    ∀ c, clients c → ∃ lock, Blocked s c lock ∧ ∀ d, s.frees d lock → clients d

def advances (s : State) (steps : List Client) : State :=
  steps.foldl (fun s d => s.step (.advance d)) s

theorem advances_nil (s : State) : advances s [] = s := rfl

theorem advances_cons (s : State) (d : Client) (steps : List Client) :
    advances s (d :: steps) = advances (s.step (.advance d)) steps := rfl

theorem advances_append (s : State) (first later : List Client) :
    advances s (first ++ later) = advances (advances s first) later :=
  List.foldl_append

/-- Steps of the calls under way bring the client to the release of its response. -/
def CanRelease (s : State) (c : Client) (url : Chars) : Prop :=
  ∃ steps, (advances s steps).responses.count (c, url) < s.responses.count (c, url)

structure Alive (s : State) : Prop where
  noDeadlock : ∀ clients, ¬ Deadlock s clients
  releases : ∀ c url, (c, url) ∈ s.responses →
    s.phases c = .entering (.releaseCachedResponse url) → CanRelease s c url

/-- An entry can be written when its response lock is free, and read unless both its locks
are taken. -/
def Open (s : State) (op : Op) : Prop :=
  ∀ l, s.entries op.url = some l →
    if op.writes then l.responseLock = false else l.responseWriteLock = false

/-- A client gets the interface lock for `cache_response` or `update_response` of a URL only
when the response lock of its entry is free, which an unreleased response or an exception of
`get_cached_response` may hold, and for a member that reads the entry unless an exception of
`update_response` has left it locked. -/
def Careful (s : State) : Action → Prop
  | .call .. => True
  | .advance c =>
    ∀ op, s.phases c = .entering op → (∃ url, op = .releaseCachedResponse url) ∨ Open s op

/-! ## The invariant -/

def Outer : Phase → Prop
  | .idle | .entering _ => True
  | _ => False

def readersOf (s : State) (url : Chars) : Nat :=
  s.responses.countP fun r => decide (r.2 = url)

/-- The locks of an entry with `n` readers. -/
def readLocks (n : Nat) : Locks := ⟨n, decide (0 < n), false⟩

/-- What an exception of `update_response` leaves. -/
def lostLocks : Locks := ⟨-1, true, true⟩

/-- The entry is read by the holders of its responses, and by readers that an exception
has left behind. -/
def SettledLocks (s : State) (url : Chars) (l : Locks) : Prop :=
  (∃ n, readersOf s url ≤ n ∧ l = readLocks n) ∨ readersOf s url = 0 ∧ l = lostLocks

def Settled (s : State) (url : Chars) : Prop :=
  (∀ l, s.entries url = some l → SettledLocks s url l) ∧
    (s.entries url = none → readersOf s url = 0)

def SettledBut (s : State) (url : Chars) : Prop := ∀ u, u ≠ url → Settled s u

/-- What holds of the state while the holder of the interface lock is at a phase. -/
def Inside (s : State) : Phase → Prop
  | .idle | .entering _ => False
  | .inside op =>
    (∀ u, Settled s u) ∧ ((∃ url, op = .releaseCachedResponse url) ∨ Open s op)
  | .lockingResponse op =>
    (∀ u, Settled s u) ∧ readersOf s op.url = 0 ∧ s.entries op.url = some ⟨0, false, false⟩
  | .lockingWrite op =>
    SettledBut s op.url ∧ readersOf s op.url = 0 ∧ s.entries op.url = some ⟨0, true, false⟩
  | .writing op =>
    SettledBut s op.url ∧ readersOf s op.url = 0 ∧ s.entries op.url = some ⟨0, true, true⟩
  | .awaitingWriter op =>
    (∀ u, Settled s u) ∧ ∃ n, readersOf s op.url ≤ n ∧ s.entries op.url = some ⟨n, true, false⟩
  | .reading op =>
    SettledBut s op.url ∧
      ∃ n : Nat, readersOf s op.url ≤ n ∧ s.entries op.url = some ⟨(n : Int) + 1, true, false⟩
  | .leaving => ∀ u, Settled s u

structure Inv (s : State) : Prop where
  outer : ∀ c, s.interfaceLock ≠ some c → Outer (s.phases c)
  free : s.interfaceLock = none → ∀ u, Settled s u
  holder : ∀ c, s.interfaceLock = some c → Inside s (s.phases c)

theorem inv_initial : Inv State.initial where
  outer _ _ := trivial
  free _ _ := ⟨nofun, fun _ => rfl⟩
  holder _ held := nomatch held

/-! ## Changes of the entries -/

@[simp] theorem to_phases (s : State) (c : Client) (phase : Phase) :
    (s.to c phase).phases c = phase := by
  simp [State.to]

theorem to_phases_ne {s : State} {c d : Client} {phase : Phase} (other : d ≠ c) :
    (s.to c phase).phases d = s.phases d := by
  simp [State.to, other]

@[simp] theorem put_entries (s : State) (url : Chars) (entry : Option Locks) :
    (s.put url entry).entries url = entry := by
  simp [State.put]

theorem put_entries_ne {s : State} {url u : Chars} {entry : Option Locks} (other : u ≠ url) :
    (s.put url entry).entries u = s.entries u := by
  simp [State.put, other]

@[simp] theorem readersOf_put (s : State) (url u : Chars) (entry : Option Locks) :
    readersOf (s.put url entry) u = readersOf s u := rfl

/-- An entry whose response lock is free has no readers. -/
theorem SettledLocks.unread {s : State} {url : Chars} {l : Locks} (settled : SettledLocks s url l)
    (free : l.responseLock = false) : readersOf s url = 0 ∧ l = ⟨0, false, false⟩ := by
  rcases settled with ⟨n, bound, rfl⟩ | ⟨-, rfl⟩
  · have none : n = 0 := by simpa [readLocks] using free
    subst none
    exact ⟨Nat.le_zero.mp bound, rfl⟩
  · cases free

/-- One that can be read is held by readers or free. -/
theorem SettledLocks.readable {s : State} {url : Chars} {l : Locks}
    (settled : SettledLocks s url l) (free : l.responseWriteLock = false) :
    ∃ n, readersOf s url ≤ n ∧ l = readLocks n := by
  rcases settled with read | ⟨-, rfl⟩
  · exact read
  · cases free

/-- Another entry's locks do not matter. -/
theorem SettledBut.put {s : State} {url : Chars} (others : SettledBut s url)
    (entry : Option Locks) : SettledBut (s.put url entry) url := by
  intro u other
  have settled := others u other
  constructor
  · intro l present
    rw [put_entries_ne other] at present
    exact settled.1 l present
  · intro absent
    rw [put_entries_ne other] at absent
    exact settled.2 absent

theorem SettledBut.all {s : State} {url : Chars} (others : SettledBut s url)
    (own : Settled s url) (u : Chars) : Settled s u := by
  by_cases same : u = url
  · subst same
    exact own
  · exact others u same

theorem SettledBut.put_all {s : State} {url : Chars} {entry : Option Locks}
    (others : SettledBut s url)
    (own : ∀ l, entry = some l → SettledLocks s url l)
    (gone : entry = none → readersOf s url = 0) (u : Chars) : Settled (s.put url entry) u := by
  refine (others.put entry).all ⟨?_, ?_⟩ u
  · intro l present
    rw [put_entries] at present
    exact own l present
  · intro absent
    rw [put_entries] at absent
    exact gone absent

/-- Collecting entries leaves the others as they are. -/
theorem settled_collect {s : State} (all : ∀ u, Settled s u) (collects : Chars → Bool)
    (u : Chars) : Settled (s.collect collects) u := by
  constructor
  · intro l present
    exact (all u).1 l (Option.filter_eq_some_iff.mp present).1
  · intro absent
    cases old : s.entries u with
    | none => exact (all u).2 old
    | some l =>
      -- what is collected has no readers
      have unread : l.readers = 0 := by
        simp only [State.collect, old, Option.filter_some, ite_eq_right_iff] at absent
        simp at absent
        exact absent.2
      rcases (all u).1 l old with ⟨n, bound, rfl⟩ | ⟨none, -⟩
      · exact Nat.le_zero.mp (bound.trans (by simpa [readLocks] using unread))
      · exact none

theorem settled_store {s : State} {url : Chars} (others : SettledBut s url)
    (quiet : readersOf s url = 0) (stored : Bool) (collects : Chars → Bool) (u : Chars) :
    Settled (s.store url stored collects) u := by
  refine settled_collect (others.put_all ?_ fun _ => quiet) collects u
  intro l present
  cases stored with
  | true => exact .inl ⟨0, Nat.le_of_eq quiet, (Option.some.inj present).symm⟩
  | false => exact nomatch present

/-- Releasing a response of one URL changes the readers of this one only. -/
theorem readersOf_erase_ne {s : State} {c : Client} {url u : Chars} (other : u ≠ url) :
    (s.responses.erase (c, url)).countP (fun r => decide (r.2 = u)) = readersOf s u := by
  unfold readersOf
  generalize s.responses = responses
  induction responses with
  | nil => rfl
  | cons r rest ih =>
    rw [List.erase_cons]
    split
    · rename_i same
      rw [eq_of_beq same, List.countP_cons_of_neg (by simpa using fun h => other h.symm)]
    · rw [List.countP_cons, List.countP_cons, ih]

theorem readersOf_erase {s : State} {c : Client} {url : Chars} (held : (c, url) ∈ s.responses) :
    (s.responses.erase (c, url)).countP (fun r => decide (r.2 = url)) + 1 =
      readersOf s url := by
  unfold readersOf
  rw [(List.perm_cons_erase held).countP_eq, List.countP_cons_of_pos (by simp)]

/-- One reader less. -/
theorem unlockRead_read (n : Nat) :
    Locks.unlockRead ⟨(n : Int) + 1, true, false⟩ = readLocks n := by
  unfold Locks.unlockRead readLocks
  rw [Int.add_sub_cancel]
  split
  · rename_i last
    obtain rfl : n = 0 := by simpa using last
    rfl
  · rename_i more
    have positive : 0 < n := by
      have : n ≠ 0 := by simpa using more
      exact Nat.pos_of_ne_zero this
    rw [decide_eq_true positive]

/-! ## Steps behind the interface lock -/

/-- The steps that are left, at most, to the end of the call. -/
def rank : Phase → Nat
  | .idle | .entering _ => 0
  | .leaving => 1
  | .writing _ | .reading _ => 2
  | .lockingWrite _ | .awaitingWriter _ => 3
  | .lockingResponse _ => 4
  | .inside _ => 5

/-- A step of the client that has the interface lock and keeps it. -/
structure Proceeds (s s' : State) (c : Client) : Prop where
  interfaceLock : s'.interfaceLock = s.interfaceLock
  others : ∀ d, d ≠ c → s'.phases d = s.phases d
  inside : Inside s' (s'.phases c)
  nearer : rank (s'.phases c) < rank (s.phases c)
  responses : ∀ d, d ≠ c → ∀ url, s'.responses.count (d, url) = s.responses.count (d, url)

theorem Proceeds.of_to {s s₁ : State} {c : Client} {phase : Phase}
    (lock : s₁.interfaceLock = s.interfaceLock) (phases : s₁.phases = s.phases)
    (inside : Inside s₁ phase) (nearer : rank phase < rank (s.phases c))
    (responses : ∀ d, d ≠ c → ∀ url,
      s₁.responses.count (d, url) = s.responses.count (d, url)) :
    Proceeds s (s₁.to c phase) c where
  interfaceLock := lock
  others d other := by rw [to_phases_ne other, phases]
  inside := by
    rw [to_phases]
    -- the locks and the responses are those of `s₁`
    cases phase <;> exact inside
  nearer := by rwa [to_phases]
  responses := responses

/-- The members that only read an entry. -/
def Reads : Op → Prop
  | .getConditionalRequestHeaders _ | .isUrlValid _ | .getCachedResponse _ _ => True
  | _ => False

theorem begin_reads {s : State} {c : Client} {op : Op} (reads : Reads op) {l : Locks}
    (present : s.entries op.url = some l) :
    s.begin c op =
      if l.responseLock then s.to c (.awaitingWriter op)
      else
        (s.put op.url (some { l with responseLock := true, readers := l.readers + 1 })).to c
          (.reading op) := by
  cases op with
  | getConditionalRequestHeaders url | isUrlValid url | getCachedResponse url readable =>
    simp only [State.begin, present]
  | cacheResponse | updateResponse | releaseCachedResponse => exact reads.elim

theorem begin_absent {s : State} {c : Client} {op : Op} (reads : Reads op)
    (absent : s.entries op.url = none) : s.begin c op = s.to c .leaving := by
  cases op with
  | getConditionalRequestHeaders url | isUrlValid url | getCachedResponse url readable =>
    simp only [State.begin, absent]
  | cacheResponse | updateResponse | releaseCachedResponse => exact reads.elim

theorem reads_proceeds {s : State} {c : Client} {op : Op} (at_op : s.phases c = .inside op)
    (settled : ∀ u, Settled s u) (reads : Reads op)
    (free : ∀ l, s.entries op.url = some l → l.responseWriteLock = false) :
    Proceeds s (s.begin c op) c := by
  have far : rank (s.phases c) = 5 := by rw [at_op]; rfl
  cases present : s.entries op.url with
  | none =>
    rw [begin_absent reads present]
    exact .of_to rfl rfl settled (by rw [far]; decide) fun _ _ _ => rfl
  | some l =>
    rw [begin_reads reads present]
    obtain ⟨n, bound, rfl⟩ := ((settled op.url).1 l present).readable (free l present)
    split
    · rename_i locked
      have locks : readLocks n = ⟨n, true, false⟩ := by
        change Locks.mk n (decide (0 < n)) false = _
        rw [show decide (0 < n) = true from locked]
      rw [locks] at present
      exact .of_to rfl rfl ⟨settled, n, bound, present⟩ (by rw [far]; decide : 3 < _)
        fun _ _ _ => rfl
    · refine .of_to rfl rfl ⟨?_, n, bound, ?_⟩ (by rw [far]; decide : 2 < _) fun _ _ _ => rfl
      · exact SettledBut.put (fun u _ => settled u) _
      · rw [put_entries]
        rfl

theorem begin_release (s : State) (c : Client) (url : Chars) :
    s.begin c (.releaseCachedResponse url) =
      if (c, url) ∈ s.responses then
        ({ s with responses := s.responses.erase (c, url) }.put url
          ((s.entries url).map Locks.unlockRead)).to c .leaving
      else s.to c .leaving := by
  cases present : s.entries url <;> simp only [State.begin, Op.url, present]

theorem release_proceeds {s : State} {c : Client} {url : Chars}
    (at_op : s.phases c = .inside (.releaseCachedResponse url)) (settled : ∀ u, Settled s u) :
    Proceeds s (s.begin c (.releaseCachedResponse url)) c := by
  have far : rank (s.phases c) = 5 := by rw [at_op]; rfl
  rw [begin_release]
  split
  · rename_i held
    refine .of_to rfl rfl ?_ (by rw [far]; decide) ?_
    · intro u
      by_cases same : u = url
      · subst same
        -- the response that is released is one of the readers of its entry
        have count := readersOf_erase held
        constructor
        · intro l present
          rw [put_entries] at present
          obtain ⟨old, found, rfl⟩ := Option.map_eq_some_iff.mp present
          rcases (settled u).1 old found with ⟨n, bound, rfl⟩ | ⟨none, -⟩
          · obtain ⟨m, rfl⟩ : ∃ m, n = m + 1 := ⟨n - 1, by omega⟩
            have locks : readLocks (m + 1) = ⟨(m : Int) + 1, true, false⟩ := by
              simp [readLocks]
            rw [locks, unlockRead_read]
            exact .inl ⟨m, Nat.le_of_succ_le_succ (count.trans_le bound), rfl⟩
          · omega
        · intro absent
          rw [put_entries, Option.map_eq_none_iff] at absent
          have none := (settled u).2 absent
          omega
      · have entry : ({ s with responses := s.responses.erase (c, url) }.put url
            ((s.entries url).map Locks.unlockRead)).entries u = s.entries u := put_entries_ne same
        have readers : readersOf ({ s with responses := s.responses.erase (c, url) }.put url
            ((s.entries url).map Locks.unlockRead)) u = readersOf s u := readersOf_erase_ne same
        refine ⟨?_, ?_⟩
        · unfold SettledLocks
          rw [entry, readers]
          exact (settled u).1
        · rw [entry, readers]
          exact (settled u).2
    · intro d other u
      exact List.count_erase_of_ne (by simp [other])
  · exact .of_to rfl rfl settled (by rw [far]; decide) fun _ _ _ => rfl

theorem writes_proceeds {s : State} {c : Client} {op : Op} (at_op : s.phases c = .inside op)
    (settled : ∀ u, Settled s u) (writes : op.writes = true)
    (free : ∀ l, s.entries op.url = some l → l.responseLock = false) :
    Proceeds s (s.begin c op) c := by
  have far : rank (s.phases c) = 5 := by rw [at_op]; rfl
  cases present : s.entries op.url with
  | none =>
    have leaves : ∃ s₁, s.begin c op = s₁.to c .leaving ∧ s₁.interfaceLock = s.interfaceLock ∧
        s₁.phases = s.phases ∧ s₁.responses = s.responses ∧ ∀ u, Settled s₁ u := by
      cases op with
      | cacheResponse url stored collects =>
        exact ⟨s.store url stored collects, by simp only [State.begin, present], rfl, rfl, rfl,
          settled_store (fun u _ => settled u) ((settled _).2 present) stored collects⟩
      | updateResponse url written =>
        exact ⟨s, by simp only [State.begin, present], rfl, rfl, rfl, settled⟩
      | getConditionalRequestHeaders | isUrlValid | getCachedResponse
      | releaseCachedResponse => cases writes
    obtain ⟨s₁, step, lock, phases, responses, after⟩ := leaves
    rw [step]
    refine .of_to lock phases after (by rw [far]; decide) ?_
    intro _ _ _
    rw [responses]
  | some l =>
    have locks : s.begin c op = s.to c (.lockingResponse op) := by
      cases op with
      | cacheResponse url stored collects | updateResponse url written =>
        simp only [State.begin, present]
      | getConditionalRequestHeaders | isUrlValid | getCachedResponse
      | releaseCachedResponse => cases writes
    obtain ⟨quiet, rfl⟩ := ((settled op.url).1 l present).unread (free l present)
    rw [locks]
    exact .of_to rfl rfl ⟨settled, quiet, present⟩ (by rw [far]; decide : 4 < _) fun _ _ _ => rfl

theorem begin_proceeds {s : State} {c : Client} {op : Op} (at_op : s.phases c = .inside op)
    (settled : ∀ u, Settled s u)
    (free : (∃ url, op = .releaseCachedResponse url) ∨ Open s op) :
    Proceeds s (s.begin c op) c := by
  rcases free with ⟨url, rfl⟩ | free
  · exact release_proceeds at_op settled
  · cases op with
    | cacheResponse url stored collects | updateResponse url written =>
      exact writes_proceeds at_op settled rfl free
    | getConditionalRequestHeaders url | isUrlValid url | getCachedResponse url readable =>
      exact reads_proceeds at_op settled trivial free
    | releaseCachedResponse url => exact release_proceeds at_op settled

theorem writing_proceeds {s : State} {c : Client} {op : Op} (at_op : s.phases c = .writing op)
    (others : SettledBut s op.url) (quiet : readersOf s op.url = 0)
    (found : s.entries op.url = some ⟨0, true, true⟩) :
    ∃ s', s.advance c = some s' ∧ Proceeds s s' c := by
  have far : rank (s.phases c) = 2 := by rw [at_op]; rfl
  have unlocked : ∀ u, Settled (s.put op.url ((s.entries op.url).map fun l =>
      { l with responseLock := false, responseWriteLock := false })) u := by
    rw [found]
    refine others.put_all ?_ nofun
    intro l present
    exact .inl ⟨0, Nat.le_of_eq quiet, (Option.some.inj present).symm⟩
  cases op with
  | cacheResponse url stored collects =>
    refine ⟨(s.store url stored collects).to c .leaving, by simp only [State.advance, at_op], ?_⟩
    exact .of_to rfl rfl (settled_store others quiet stored collects) (by rw [far]; decide)
      fun _ _ _ => rfl
  | updateResponse url written =>
    cases written with
    | true =>
      refine ⟨_, by simp only [State.advance, at_op]; rfl, ?_⟩
      exact .of_to rfl rfl unlocked (by rw [far]; decide) fun _ _ _ => rfl
    | false =>
      refine ⟨_, by simp only [State.advance, at_op]; rfl, ?_⟩
      refine .of_to rfl rfl ?_ (by rw [far]; decide) fun _ _ _ => rfl
      change ∀ u, Settled (s.put url ((s.entries url).map Locks.unlockRead)) u
      have found : s.entries url = some ⟨0, true, true⟩ := found
      rw [found]
      refine SettledBut.put_all others ?_ nofun
      intro l present
      exact .inr ⟨quiet, (Option.some.inj present).symm⟩
  | getConditionalRequestHeaders | isUrlValid | getCachedResponse | releaseCachedResponse =>
    refine ⟨_, by simp only [State.advance, at_op]; rfl, ?_⟩
    exact .of_to rfl rfl unlocked (by rw [far]; decide) fun _ _ _ => rfl

theorem reading_proceeds {s : State} {c : Client} {op : Op} (at_op : s.phases c = .reading op)
    (others : SettledBut s op.url) {n : Nat} (bound : readersOf s op.url ≤ n)
    (found : s.entries op.url = some ⟨(n : Int) + 1, true, false⟩) :
    ∃ s', s.advance c = some s' ∧ Proceeds s s' c := by
  have far : rank (s.phases c) = 2 := by rw [at_op]; rfl
  have more : (⟨(n : Int) + 1, true, false⟩ : Locks) = readLocks (n + 1) := by simp [readLocks]
  have unlocked : ∀ u, Settled (s.put op.url ((s.entries op.url).map Locks.unlockRead)) u := by
    rw [found, Option.map_some, unlockRead_read]
    refine others.put_all ?_ nofun
    intro l present
    exact .inl ⟨n, bound, (Option.some.inj present).symm⟩
  cases op with
  | getCachedResponse url readable =>
    cases readable with
    | true =>
      refine ⟨{ s with responses := (c, url) :: s.responses }.to c .leaving,
        by simp only [State.advance, at_op], ?_⟩
      refine .of_to rfl rfl ?_ (by rw [far]; decide) ?_
      · intro u
        by_cases same : u = url
        · subst same
          have count : readersOf { s with responses := (c, u) :: s.responses } u =
              readersOf s u + 1 := List.countP_cons_of_pos (decide_eq_true rfl)
          constructor
          · intro l present
            rw [← Option.some.inj (found.symm.trans present), more]
            exact .inl ⟨n + 1, by rw [count]; exact Nat.succ_le_succ bound, rfl⟩
          · intro absent
            exact nomatch found.symm.trans absent
        · have as_before : readersOf { s with responses := (c, url) :: s.responses } u =
              readersOf s u := List.countP_cons_of_neg (by simpa using fun h => same h.symm)
          refine ⟨?_, ?_⟩
          · unfold SettledLocks
            rw [as_before]
            exact (others u same).1
          · rw [as_before]
            exact (others u same).2
      · intro d other u
        exact List.count_cons_of_ne (by simp [Ne.symm other])
    | false =>
      refine ⟨s.to c .leaving, by simp only [State.advance, at_op], ?_⟩
      refine .of_to rfl rfl ?_ (by rw [far]; decide) fun _ _ _ => rfl
      -- the reader that failed stays a reader
      refine SettledBut.all others ⟨?_, ?_⟩
      · intro l present
        rw [← Option.some.inj (found.symm.trans present), more]
        exact .inl ⟨n + 1, Nat.le_succ_of_le bound, rfl⟩
      · intro absent
        exact nomatch found.symm.trans absent
  | cacheResponse | updateResponse | getConditionalRequestHeaders | isUrlValid
  | releaseCachedResponse =>
    refine ⟨_, by simp only [State.advance, at_op]; rfl, ?_⟩
    exact .of_to rfl rfl unlocked (by rw [far]; decide) fun _ _ _ => rfl

/-- Whoever has the interface lock is never blocked, and its call comes to its end. -/
theorem holder_proceeds {s : State} {c : Client} (inside : Inside s (s.phases c))
    (stays : s.phases c ≠ .leaving) : ∃ s', s.advance c = some s' ∧ Proceeds s s' c := by
  cases phase : s.phases c with
  | idle | entering op => rw [phase] at inside; exact inside.elim
  | leaving => exact absurd phase stays
  | inside op =>
    rw [phase] at inside
    exact ⟨_, by simp only [State.advance, phase], begin_proceeds phase inside.1 inside.2⟩
  | lockingResponse op =>
    rw [phase] at inside
    obtain ⟨settled, quiet, found⟩ := inside
    refine ⟨(s.put op.url (some ⟨0, true, false⟩)).to c (.lockingWrite op),
      by simp only [State.advance, phase, found]; rfl, ?_⟩
    refine .of_to rfl rfl ?_ (by rw [phase]; exact Nat.lt_succ_self 3) fun _ _ _ => rfl
    exact ⟨SettledBut.put (fun u _ => settled u) _, quiet, put_entries ..⟩
  | lockingWrite op =>
    rw [phase] at inside
    obtain ⟨others, quiet, found⟩ := inside
    refine ⟨(s.put op.url (some ⟨0, true, true⟩)).to c (.writing op),
      by simp only [State.advance, phase, found]; rfl, ?_⟩
    refine .of_to rfl rfl ?_ (by rw [phase]; exact Nat.lt_succ_self 2) fun _ _ _ => rfl
    exact ⟨others.put _, quiet, put_entries ..⟩
  | writing op =>
    rw [phase] at inside
    exact writing_proceeds phase inside.1 inside.2.1 inside.2.2
  | awaitingWriter op =>
    rw [phase] at inside
    obtain ⟨settled, n, bound, found⟩ := inside
    refine ⟨(s.put op.url (some ⟨(n : Int) + 1, true, false⟩)).to c (.reading op),
      by simp only [State.advance, phase, found]; rfl, ?_⟩
    refine .of_to rfl rfl ?_ (by rw [phase]; exact Nat.lt_succ_self 2) fun _ _ _ => rfl
    exact ⟨SettledBut.put (fun u _ => settled u) _, n, bound, put_entries ..⟩
  | reading op =>
    rw [phase] at inside
    obtain ⟨others, n, bound, found⟩ := inside
    exact reading_proceeds phase others bound found

/-- A step of one client leaves the others where they are. -/
theorem begin_other {s : State} {c d : Client} (op : Op) (other : d ≠ c) :
    (s.begin c op).phases d = s.phases d := by
  unfold State.begin
  split
  · exact to_phases_ne other
  · exact to_phases_ne other
  · exact to_phases_ne other
  · split <;> exact to_phases_ne other
  · exact to_phases_ne other
  · split <;> exact to_phases_ne other

theorem advance_other {s s' : State} {c d : Client} (step : s.advance c = some s')
    (other : d ≠ c) : s'.phases d = s.phases d := by
  unfold State.advance at step
  cases phase : s.phases c with
  | idle => rw [phase] at step; cases step
  | inside op =>
    rw [phase] at step
    obtain rfl := Option.some.inj step
    exact begin_other op other
  | leaving =>
    rw [phase] at step
    obtain rfl := Option.some.inj step
    exact to_phases_ne other
  | writing op | reading op =>
    rw [phase] at step
    rcases op with ⟨⟩ | ⟨url, _ | _⟩ | ⟨⟩ | ⟨⟩ | ⟨url, _ | _⟩ | ⟨⟩ <;>
      (obtain rfl := Option.some.inj step; exact to_phases_ne other)
  | entering op =>
    rw [phase] at step
    simp only [Option.ite_none_right_eq_some, Option.some.injEq] at step
    rw [← step.2]
    exact to_phases_ne other
  | lockingResponse op | lockingWrite op | awaitingWriter op =>
    rw [phase] at step
    cases present : s.entries op.url with
    | none => simp only [present] at step; cases step
    | some l =>
      simp only [present, Option.ite_none_left_eq_some, Option.some.injEq] at step
      rw [← step.2]
      exact to_phases_ne other

def client : Action → Client
  | .call c _ | .advance c => c

theorem step_other (s : State) {a : Action} {d : Client} (other : d ≠ client a) :
    (s.step a).phases d = s.phases d := by
  cases a with
  | call c op =>
    unfold State.step
    dsimp only
    split
    · exact to_phases_ne other
    · rfl
  | advance c =>
    change ((s.advance c).getD s).phases d = _
    cases step : s.advance c with
    | none => rfl
    | some s' => exact advance_other step other

/-! ## Every step keeps the invariant -/

theorem Inv.proceeds {s s' : State} {c : Client} (inv : Inv s)
    (holds : s.interfaceLock = some c) (step : Proceeds s s' c) : Inv s' where
  outer d other := by
    have ne : d ≠ c := by
      rintro rfl
      exact other (step.interfaceLock.trans holds)
    rw [step.others d ne]
    exact inv.outer d (by rwa [← step.interfaceLock])
  free none := by
    rw [step.interfaceLock, holds] at none
    cases none
  holder d held := by
    rw [step.interfaceLock, holds] at held
    cases held
    exact step.inside

/-- Only the responses, the entries and the phase of the holder matter. -/
theorem Inside.to {s : State} {c : Client} {phase : Phase} {at_phase : Phase}
    (inside : Inside s at_phase) : Inside (s.to c phase) at_phase := by
  cases at_phase <;> exact inside

theorem leave_inv {s : State} {c : Client} (inv : Inv s) (holds : s.interfaceLock = some c)
    (at_end : s.phases c = .leaving) :
    Inv ({ s with interfaceLock := none }.to c .idle) where
  outer d _ := by
    by_cases same : d = c
    · rw [same, to_phases]
      trivial
    · rw [to_phases_ne same]
      exact inv.outer d fun held => same (Option.some.inj (held.symm.trans holds))
  free _ := by
    have inside := inv.holder c holds
    rw [at_end] at inside
    exact inside
  holder _ held := nomatch held

theorem enter_inv {s : State} {c : Client} {op : Op} (inv : Inv s)
    (free : s.interfaceLock = none)
    (careful : (∃ url, op = .releaseCachedResponse url) ∨ Open s op) :
    Inv ({ s with interfaceLock := some c }.to c (.inside op)) where
  outer d other := by
    have ne : d ≠ c := fun same => other (by rw [same]; rfl)
    rw [to_phases_ne ne]
    exact inv.outer d (by rw [free]; nofun)
  free none := nomatch none
  holder d held := by
    cases held
    rw [to_phases]
    exact ⟨inv.free free, careful⟩

theorem call_inv {s : State} {c : Client} {op : Op} (inv : Inv s) (idle : s.phases c = .idle) :
    Inv (s.to c (.entering op)) where
  outer d other := by
    by_cases same : d = c
    · rw [same, to_phases]
      trivial
    · rw [to_phases_ne same]
      exact inv.outer d other
  free := inv.free
  holder d held := by
    have inside := inv.holder d held
    by_cases same : d = c
    · rw [same, idle] at inside
      exact inside.elim
    · rw [to_phases_ne same]
      exact inside.to

theorem advance_inv {s s' : State} {c : Client} (inv : Inv s) (careful : Careful s (.advance c))
    (step : s.advance c = some s') : Inv s' := by
  by_cases holds : s.interfaceLock = some c
  · by_cases at_end : s.phases c = .leaving
    · unfold State.advance at step
      rw [at_end] at step
      obtain rfl := Option.some.inj step
      exact leave_inv inv holds at_end
    · obtain ⟨s₁, step₁, proceeds⟩ := holder_proceeds (inv.holder c holds) at_end
      obtain rfl := Option.some.inj (step₁.symm.trans step)
      exact inv.proceeds holds proceeds
  · have outer := inv.outer c holds
    unfold State.advance at step
    cases phase : s.phases c with
    | idle => rw [phase] at step; cases step
    | entering op =>
      rw [phase] at step
      simp only at step
      split at step
      · rename_i free
        obtain rfl := Option.some.inj step
        exact enter_inv inv free (careful op phase)
      · cases step
    | inside | lockingResponse | lockingWrite | writing | awaitingWriter | reading | leaving =>
      rw [phase] at outer
      exact outer.elim

theorem step_inv {s : State} {a : Action} (inv : Inv s) (careful : Careful s a) :
    Inv (s.step a) := by
  cases a with
  | call c op =>
    unfold State.step
    dsimp only
    split
    · rename_i idle
      exact call_inv inv idle
    · exact inv
  | advance c =>
    change Inv ((s.advance c).getD s)
    cases step : s.advance c with
    | none => exact inv
    | some s' => exact advance_inv inv careful step

/-! ## What the invariant gives -/

theorem Inv.unblocked {s : State} {c : Client} (inv : Inv s) (holds : s.interfaceLock = some c)
    (lock : Lock) : ¬ Blocked s c lock := by
  rintro ⟨wanted, held⟩
  have inside := inv.holder c holds
  unfold State.wanted at wanted
  cases phase : s.phases c with
  | idle | entering => rw [phase] at inside; exact inside.elim
  | inside | writing | reading | leaving => rw [phase] at wanted; cases wanted
  | lockingResponse op =>
    rw [phase] at wanted inside
    obtain rfl := Option.some.inj wanted
    obtain ⟨l, present, locked⟩ := held
    obtain rfl := Option.some.inj (inside.2.2.symm.trans present)
    cases locked
  | lockingWrite op =>
    rw [phase] at wanted inside
    obtain rfl := Option.some.inj wanted
    obtain ⟨l, present, locked⟩ := held
    obtain rfl := Option.some.inj (inside.2.2.symm.trans present)
    cases locked
  | awaitingWriter op =>
    rw [phase] at wanted inside
    obtain rfl := Option.some.inj wanted
    obtain ⟨l, present, locked⟩ := held
    obtain ⟨-, n, -, found⟩ := inside
    obtain rfl := Option.some.inj (found.symm.trans present)
    cases locked

/-- Whoever waits, waits for the interface lock. -/
theorem Inv.waits {s : State} {c : Client} {lock : Lock} (inv : Inv s)
    (blocked : Blocked s c lock) : lock = .interface ∧ ∃ h, s.interfaceLock = some h := by
  have outer : Outer (s.phases c) := by
    refine inv.outer c fun holds => ?_
    exact inv.unblocked holds lock blocked
  obtain ⟨wanted, held⟩ := blocked
  unfold State.wanted at wanted
  cases phase : s.phases c with
  | idle => rw [phase] at wanted; cases wanted
  | entering op =>
    rw [phase] at wanted
    obtain rfl := Option.some.inj wanted
    exact ⟨rfl, Option.ne_none_iff_exists'.mp held⟩
  | inside | lockingResponse | lockingWrite | writing | awaitingWriter | reading | leaving =>
    rw [phase] at outer
    exact outer.elim

theorem Inv.noDeadlock {s : State} (inv : Inv s) (clients : Client → Prop) :
    ¬ Deadlock s clients := by
  rintro ⟨⟨c, member⟩, stuck⟩
  obtain ⟨lock, blocked, closed⟩ := stuck c member
  obtain ⟨rfl, h, holds⟩ := inv.waits blocked
  obtain ⟨lock, blocked, -⟩ := stuck h (closed h holds)
  exact inv.unblocked holds lock blocked

/-- Steps of the client behind the interface lock free it, and leave the others alone. -/
theorem Inv.finishes {s : State} {h : Client} (inv : Inv s) (holds : s.interfaceLock = some h) :
    ∃ steps, (advances s steps).interfaceLock = none ∧
      ∀ c, c ≠ h → (advances s steps).phases c = s.phases c ∧
        ∀ url, (advances s steps).responses.count (c, url) = s.responses.count (c, url) := by
  induction near : rank (s.phases h) using Nat.strong_induction_on generalizing s with
  | h n ih =>
    by_cases at_end : s.phases h = .leaving
    · have step : s.step (.advance h) = { s with interfaceLock := none }.to h .idle := by
        simp only [State.step, State.advance, at_end, Option.getD_some]
      refine ⟨[h], ?_⟩
      rw [advances_cons, step]
      exact ⟨rfl, fun c other => ⟨to_phases_ne other, fun _ => rfl⟩⟩
    · obtain ⟨s', step, proceeds⟩ := holder_proceeds (inv.holder h holds) at_end
      have next : s.step (.advance h) = s' := by
        change (s.advance h).getD s = s'
        rw [step, Option.getD_some]
      obtain ⟨steps, free, others⟩ := ih _ (near ▸ proceeds.nearer) (inv.proceeds holds proceeds)
        (proceeds.interfaceLock.trans holds) rfl
      refine ⟨h :: steps, ?_⟩
      rw [advances_cons, next]
      refine ⟨free, fun c other => ⟨?_, fun url => ?_⟩⟩
      · exact (others c other).1.trans (proceeds.others c other)
      · exact ((others c other).2 url).trans (proceeds.responses c other url)

theorem release_step {s : State} {c : Client} {url : Chars} (held : (c, url) ∈ s.responses)
    (at_op : s.phases c = .inside (.releaseCachedResponse url)) :
    (s.step (.advance c)).responses = s.responses.erase (c, url) := by
  have begins : s.step (.advance c) = s.begin c (.releaseCachedResponse url) := by
    simp only [State.step, State.advance, at_op, Option.getD_some]
  rw [begins, begin_release, if_pos held]
  rfl

/-- Nobody has the interface lock: two steps of the client release its response. -/
theorem release_steps {s : State} {c : Client} {url : Chars} (held : (c, url) ∈ s.responses)
    (free : s.interfaceLock = none)
    (at_lock : s.phases c = .entering (.releaseCachedResponse url)) : CanRelease s c url := by
  have enters : s.step (.advance c) =
      { s with interfaceLock := some c }.to c (.inside (.releaseCachedResponse url)) := by
    simp only [State.step, State.advance, at_lock, free, if_pos, Option.getD_some]
  have released : (({ s with interfaceLock := some c }.to c
      (.inside (.releaseCachedResponse url))).step (.advance c)).responses =
      s.responses.erase (c, url) := release_step held (to_phases ..)
  refine ⟨[c, c], ?_⟩
  rw [advances_cons, enters, advances_cons, advances_nil, released]
  rw [List.count_erase_self]
  exact Nat.sub_lt (List.count_pos_iff.mpr held) Nat.one_pos

theorem Inv.releases {s : State} (inv : Inv s) {c : Client} {url : Chars}
    (held : (c, url) ∈ s.responses)
    (at_lock : s.phases c = .entering (.releaseCachedResponse url)) : CanRelease s c url := by
  cases lock : s.interfaceLock with
  | none => exact release_steps held lock at_lock
  | some h =>
    have other : c ≠ h := by
      rintro rfl
      have inside := inv.holder c lock
      rw [at_lock] at inside
      exact inside
    obtain ⟨first, free, kept⟩ := inv.finishes lock
    obtain ⟨phase, count⟩ := kept c other
    have still : (c, url) ∈ (advances s first).responses := by
      rw [← List.count_pos_iff, count url]
      exact List.count_pos_iff.mpr held
    obtain ⟨later, fewer⟩ := release_steps still free (phase.trans at_lock)
    refine ⟨first ++ later, ?_⟩
    rw [advances_append, ← count url]
    exact fewer

theorem Inv.alive {s : State} (inv : Inv s) : Alive s where
  noDeadlock := inv.noDeadlock
  releases _ _ held at_lock := inv.releases held at_lock

/-- In a run that enters the writing members only where the response lock of the entry is
free, and the reading ones unless both its locks are taken, no state has a deadlock, and every
response can be released. -/
theorem neverDeadlocks_careful {actions : List Action}
    (careful : AllSteps State.step Careful State.initial actions) :
    AfterEach State.step Alive State.initial actions :=
  afterEach_of_kept State.step (fun _ _ => step_inv) (fun _ => Inv.alive) inv_initial careful

/-! The URL is in the cache, and one client holds its response while another caches it. -/

def page : Chars := ['h', 't', 't', 'p', ':']

def caches (c : Client) : List Action :=
  [.call c (.cacheResponse page true fun _ => false), .advance c, .advance c]

def gets (c : Client) : List Action :=
  [.call c (.getCachedResponse page true), .advance c, .advance c, .advance c, .advance c]

theorem careful_open {s : State} {c : Client} {op : Op} (at_phase : s.phases c = .entering op)
    (free : Open s op) : Careful s (.advance c) := by
  intro op' entering
  obtain rfl := Phase.entering.inj (at_phase.symm.trans entering)
  exact .inr free

theorem careful_behind {s : State} {c : Client} {phase : Phase} (at_phase : s.phases c = phase)
    (behind : ¬ Outer phase) : Careful s (.advance c) := by
  intro op entering
  rw [← at_phase, entering] at behind
  exact absurd trivial behind

theorem neverDeadlocks_careful_gets :
    AfterEach State.step Alive State.initial
      (caches 0 ++ [.advance 0] ++ gets 1 ++ [.call 1 (.releaseCachedResponse page)]) :=
  neverDeadlocks_careful
    ⟨trivial, careful_open rfl nofun, careful_behind rfl id, careful_behind rfl id, trivial,
      careful_open rfl (fun _ present => Option.some.inj present ▸ rfl), careful_behind rfl id,
      careful_behind rfl id, careful_behind (show _ = Phase.leaving from rfl) id, trivial, trivial⟩

def stuck : State :=
  ((caches 0 ++ [Action.advance 0] ++ gets 1 ++ caches 0).foldl State.step State.initial).step
    (.call 1 (.releaseCachedResponse page))

/-- Nobody else has called anything. -/
theorem stuck_others {d : Client} (zero : d ≠ 0) (one : d ≠ 1) : stuck.phases d = .idle := by
  have idle : ∀ (actions : List Action) (s : State), (∀ a ∈ actions, d ≠ client a) →
      (actions.foldl State.step s).phases d = s.phases d := by
    intro actions
    induction actions with
    | nil => exact fun _ _ => rfl
    | cons a rest ih =>
      intro s others
      have later := ih (s.step a) fun b member => others b (List.mem_cons_of_mem _ member)
      rw [List.foldl_cons, later, step_other s (others a List.mem_cons_self)]
  unfold stuck
  rw [step_other _ (show d ≠ client (.call 1 _) from one)]
  refine (idle _ _ ?_).trans rfl
  simp [caches, gets, client, zero, one]

/-- The cached response is read by one client; the other waits for its lock behind the
interface lock, and the first for the interface lock to release it. -/
theorem neverDeadlocks_fails :
    ¬ AfterEach State.step Alive State.initial
      (caches 0 ++ [.advance 0] ++ gets 1 ++ caches 0 ++
        [.call 1 (.releaseCachedResponse page)]) := by
  intro each
  have alive : Alive stuck := AfterEach.last State.step each
  refine alive.noDeadlock (fun d => d = 0 ∨ d = 1) ⟨⟨0, .inl rfl⟩, ?_⟩
  rintro c (rfl | rfl)
  · refine ⟨.response page, ⟨rfl, ⟨1, true, false⟩, rfl, rfl⟩, ?_⟩
    rintro d (held | ⟨op, -, at_phase⟩)
    · have one_response : stuck.responses = [(1, page)] := rfl
      rw [one_response, List.mem_singleton] at held
      exact .inr (congrArg Prod.fst held)
    · by_contra neither
      rw [not_or] at neither
      rw [stuck_others neither.1 neither.2] at at_phase
      simp at at_phase
  · refine ⟨.interface, ⟨rfl, nofun⟩, ?_⟩
    intro d frees
    exact .inl (Option.some.inj frees).symm

end Libdap.Guarantees.HTTPCacheClients
