import Libdap.Source.HTTPCacheTable

/-!
# HTTPCache: clients and their locks

The lock operations of the members of HTTPCache, one step each, for any number of
clients. A file that cannot be read or written raises an exception; what its handler does
with the locks of the entry is followed. Of an entry there are its locks and the count of
its readers only. With `d_always_validate` set is_url_valid takes no lock of an entry; it is
not.
-/
namespace Libdap.Source.HTTPCacheClients
open HTTPCacheTable (Chars)

abbrev Client := Nat

/-- The mutexes of an entry, each held or not, and `readers`. -/
structure Locks where
  readers : Int
  responseLock : Bool
  responseWriteLock : Bool
  deriving DecidableEq, Repr

def Locks.fresh : Locks := ⟨0, false, false⟩

inductive Op where
  /-- Whether the response is stored, and what a garbage collection may take. -/
  | cacheResponse (url : Chars) (stored : Bool) (collects : Chars → Bool)
  /-- Whether its headers are read and written. -/
  | updateResponse (url : Chars) (written : Bool)
  | getConditionalRequestHeaders (url : Chars)
  | isUrlValid (url : Chars)
  /-- Whether its files are read. -/
  | getCachedResponse (url : Chars) (readable : Bool)
  /-- Releases a response of this URL. -/
  | releaseCachedResponse (url : Chars)

def Op.url : Op → Chars
  | .cacheResponse url _ _ | .updateResponse url _ | .getConditionalRequestHeaders url
  | .isUrlValid url | .getCachedResponse url _ | .releaseCachedResponse url => url

/-- The members that lock an entry for writing. -/
def Op.writes : Op → Bool
  | .cacheResponse .. | .updateResponse .. => true
  | _ => false

inductive Phase where
  | idle
  /-- At `lock_cache_interface`. -/
  | entering (op : Op)
  | inside (op : Op)
  /-- At the two locks of `lock_write_response`. -/
  | lockingResponse (op : Op)
  | lockingWrite (op : Op)
  | writing (op : Op)
  /-- In `lock_read_response`, behind a try that failed. -/
  | awaitingWriter (op : Op)
  | reading (op : Op)
  | leaving

structure State where
  /-- Who holds the interface lock. -/
  interfaceLock : Option Client
  entries : Chars → Option Locks
  phases : Client → Phase
  /-- The responses that clients got and have not released. -/
  responses : List (Client × Chars)

def State.initial : State :=
  { interfaceLock := none, entries := fun _ => none, phases := fun _ => .idle, responses := [] }

def State.to (s : State) (c : Client) (phase : Phase) : State :=
  { s with phases := fun d => if d = c then phase else s.phases d }

def State.put (s : State) (url : Chars) (entry : Option Locks) : State :=
  { s with entries := fun u => if u = url then entry else s.entries u }

/-- Garbage collection takes entries without readers. -/
def State.collect (s : State) (collects : Chars → Bool) : State :=
  { s with entries := fun u => (s.entries u).filter fun l => !(collects u && l.readers == 0) }

/-- The response is stored, or it is not and its old entry is gone. -/
def State.store (s : State) (url : Chars) (stored : Bool) (collects : Chars → Bool) : State :=
  (s.put url (if stored then some .fresh else none)).collect collects

def Locks.unlockRead (l : Locks) : Locks :=
  if l.readers - 1 = 0 then { l with readers := l.readers - 1, responseLock := false }
  else { l with readers := l.readers - 1 }

/-- The member function behind the interface lock. -/
def State.begin (s : State) (c : Client) (op : Op) : State :=
  match op, s.entries op.url with
  | .cacheResponse url stored collects, none => (s.store url stored collects).to c .leaving
  | .cacheResponse .., some _ | .updateResponse .., some _ => s.to c (.lockingResponse op)
  | .releaseCachedResponse url, entry =>
    if (c, url) ∈ s.responses then
      ({ s with responses := s.responses.erase (c, url) }.put url
        (entry.map Locks.unlockRead)).to c .leaving
    else s.to c .leaving
  | _, none => s.to c .leaving
  | _, some l =>
    if l.responseLock then s.to c (.awaitingWriter op)
    else
      (s.put op.url (some { l with responseLock := true, readers := l.readers + 1 })).to c
        (.reading op)

/-- The next step of a client, if it is not waiting for a lock or for a call. -/
def State.advance (s : State) (c : Client) : Option State :=
  match s.phases c with
  | .idle => none
  | .entering op =>
    if s.interfaceLock = none then some ({ s with interfaceLock := some c }.to c (.inside op))
    else none
  | .inside op => some (s.begin c op)
  | .lockingResponse op =>
    match s.entries op.url with
    | none => none
    | some l =>
      if l.responseLock then none
      else some ((s.put op.url (some { l with responseLock := true })).to c (.lockingWrite op))
  | .lockingWrite op =>
    match s.entries op.url with
    | none => none
    | some l =>
      if l.responseWriteLock then none
      else some ((s.put op.url (some { l with responseWriteLock := true })).to c (.writing op))
  | .writing (.cacheResponse url stored collects) =>
    some ((s.store url stored collects).to c .leaving)
  -- The handler of update_response unlocks for reading what was locked for writing.
  | .writing (.updateResponse url false) =>
    some ((s.put url ((s.entries url).map Locks.unlockRead)).to c .leaving)
  | .writing op =>
    some ((s.put op.url ((s.entries op.url).map fun l =>
      { l with responseLock := false, responseWriteLock := false })).to c .leaving)
  | .awaitingWriter op =>
    match s.entries op.url with
    | none => none
    | some l =>
      if l.responseWriteLock then none
      else some ((s.put op.url (some { l with readers := l.readers + 1 })).to c (.reading op))
  | .reading (.getCachedResponse url true) =>
    some ({ s with responses := (c, url) :: s.responses }.to c .leaving)
  -- The handler of get_cached_response unlocks the interface only.
  | .reading (.getCachedResponse _ false) => some (s.to c .leaving)
  | .reading op =>
    some ((s.put op.url ((s.entries op.url).map Locks.unlockRead)).to c .leaving)
  | .leaving => some ({ s with interfaceLock := none }.to c .idle)

inductive Action where
  | call (c : Client) (op : Op)
  | advance (c : Client)

/-- An action that is not possible changes nothing. -/
def State.step (s : State) : Action → State
  | .call c op =>
    match s.phases c with
    | .idle => s.to c (.entering op)
    | _ => s
  | .advance c => (s.advance c).getD s

/-! ## Waiting -/

inductive Lock where
  | interface
  | response (url : Chars)
  | write (url : Chars)

def State.held (s : State) : Lock → Prop
  | .interface => s.interfaceLock ≠ none
  | .response url => ∃ l, s.entries url = some l ∧ l.responseLock = true
  | .write url => ∃ l, s.entries url = some l ∧ l.responseWriteLock = true

/-- The lock a client is at. -/
def State.wanted (s : State) (c : Client) : Option Lock :=
  match s.phases c with
  | .entering _ => some .interface
  | .lockingResponse op => some (.response op.url)
  | .lockingWrite op | .awaitingWriter op => some (.write op.url)
  | _ => none

/-- The clients that can free a lock: whoever holds it in a member function, and for a
response lock also those who still have to release a response. -/
def State.frees (s : State) (d : Client) : Lock → Prop
  | .interface => s.interfaceLock = some d
  | .response url =>
    (d, url) ∈ s.responses ∨
      ∃ op, op.url = url ∧
        (s.phases d = .lockingWrite op ∨ s.phases d = .writing op ∨ s.phases d = .reading op)
  | .write url => ∃ op, op.url = url ∧ s.phases d = .writing op

end Libdap.Source.HTTPCacheClients
