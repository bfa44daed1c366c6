import Bitmine.Lib.JsonParse
import Bitmine.Lib.Lines
import Bitmine.Lib.Utf8
import Bitmine.Security

namespace Bitmine.LineJsonPeer

open Bitmine.Lib.JsonText Bitmine.Lib.JsonParse Bitmine.Lib.Lines Bitmine.Lib.Utf8 Bitmine.Security

inductive ProtocolError where
  | exceeded
  | malformed
  | notObject
  | handler (reason : String)
  deriving DecidableEq

def newline : UInt8 := 0x0a

structure Reader where
  buffer : Bytes
  lines : ℕ

/-- What the reader makes of its input: a message to be handled or an error,
with the number of the line. -/
inductive Outcome where
  | message (line : ℕ) (value : Json)
  | protocolError (line : ℕ) (error : ProtocolError)

inductive Verdict where
  | blank
  | message (value : Json)
  | fails (error : ProtocolError)

section Send

/-- `send`: nothing is written to a socket that is destroyed or not writable. -/
def send (writable : Bool) (message : Json) : Bytes :=
  if writable then encode ((Json.stringify message).toList ++ ['\n']) else []

end Send

variable (numberText : String → String) (maxLineBytes : ℕ)

section Read

/-- `toString('utf8').trim()`. -/
def lineText (line : Bytes) : List Char := (trim (String.ofList (decode line))).toList

def readMessage (text : List Char) : Except ProtocolError Json :=
  match parse numberText text with
  | none => .error .malformed
  | some (.obj members) => .ok (.obj members)
  | some _ => .error .notObject

def judge (line : Bytes) : Verdict :=
  if maxLineBytes < length (lineText line) then .fails .exceeded
  else if lineText line = [] then .blank
  else
    match readMessage numberText (lineText line) with
    | .ok value => .message value
    | .error e => .fails e

def nextLine (buffer : Bytes) : Option (Bytes × Bytes) :=
  match buffer.dropWhile (· ≠ newline) with
  | [] => none
  | _ :: rest => some (buffer.takeWhile (· ≠ newline), rest)

/-- The loop of `consume`, for at most so many lines. -/
def loop : ℕ → Reader → Reader × List Outcome
  | 0, r => (r, [])
  | n + 1, r =>
    match nextLine r.buffer with
    | none => (r, [])
    | some (line, rest) =>
      let r' : Reader := ⟨rest, r.lines + 1⟩
      match judge numberText maxLineBytes line with
      | .blank => loop n r'
      | .message value => ((loop n r').1, .message r.lines value :: (loop n r').2)
      | .fails e => (r', [.protocolError r.lines e])

def consume (r : Reader) (chunk : Bytes) : Reader × List Outcome :=
  let buffer := r.buffer ++ chunk
  if maxLineBytes < buffer.length ∧ newline ∉ buffer then
    (⟨buffer, r.lines⟩, [.protocolError r.lines .exceeded])
  else loop numberText maxLineBytes buffer.length ⟨buffer, r.lines⟩

def feed (r : Reader) : List Bytes → Reader × List Outcome
  | [] => (r, [])
  | chunk :: chunks =>
    let (r', l) := consume numberText maxLineBytes r chunk
    ((feed r' chunks).1, l ++ (feed r' chunks).2)

end Read

section Handle

/-- The calls of the handler, how they settle, and the calls of `onProtocolError`. -/
inductive Entry where
  | started (line : ℕ) (value : Json)
  | settled (line : ℕ) (error : Option String)
  | protocolError (line : ℕ) (error : ProtocolError)

/-- A peer: the chained handlers that have not started, the one that runs, and
the past. -/
structure Peer where
  reader : Reader
  queue : List (ℕ × Json)
  running : Option (ℕ × Json)
  log : List Entry

def Peer.fresh : Peer := ⟨⟨[], 0⟩, [], none, []⟩

def Peer.put (p : Peer) : Outcome → Peer
  | .message line value => { p with queue := p.queue ++ [(line, value)] }
  | .protocolError line e => { p with log := p.log ++ [.protocolError line e] }

def Outcome.queued : Outcome → Option (ℕ × Json)
  | .message line value => some (line, value)
  | .protocolError _ _ => none

def Outcome.logged : Outcome → Option Entry
  | .message _ _ => none
  | .protocolError line e => some (.protocolError line e)

theorem foldl_put (l : List Outcome) (p : Peer) : l.foldl Peer.put p =
    { p with queue := p.queue ++ l.filterMap Outcome.queued,
             log := p.log ++ l.filterMap Outcome.logged } := by
  induction l generalizing p with
  | nil => simp
  | cons o l ih =>
    rw [List.foldl_cons, ih]
    cases o <;> simp [Peer.put, Outcome.queued, Outcome.logged, List.filterMap_cons]

inductive Event where
  | data (chunk : Bytes)
  | start
  | settle (error : Option String)

def Peer.step (p : Peer) : Event → Option Peer
  | .data chunk =>
    let (r, l) := consume numberText maxLineBytes p.reader chunk
    some (l.foldl Peer.put { p with reader := r })
  | .start =>
    match p.running, p.queue with
    | none, (line, value) :: queue =>
      some { p with queue, running := some (line, value), log := p.log ++ [.started line value] }
    | _, _ => none
  | .settle error =>
    p.running.map (fun (line, _) =>
      { p with
        running := none
        log := p.log ++ .settled line error ::
          (error.map (fun reason => .protocolError line (.handler reason))).toList })

def run (p : Peer) (events : List Event) : Option Peer :=
  events.foldlM (Peer.step numberText maxLineBytes) p

def received (events : List Event) : Bytes :=
  events.flatMap (fun
    | .data chunk => chunk
    | _ => [])

end Handle

section Spec

def outcomes : ℕ → List Bytes → List Outcome
  | _, [] => []
  | i, line :: lines =>
    match judge numberText maxLineBytes line with
    | .blank => outcomes (i + 1) lines
    | .message value => .message i value :: outcomes (i + 1) lines
    | .fails e => [.protocolError i e]

def taken : List Bytes → ℕ
  | [] => 0
  | line :: lines =>
    match judge numberText maxLineBytes line with
    | .fails _ => 1
    | _ => taken lines + 1

variable {numberText maxLineBytes}

theorem nextLine_none {buffer : Bytes} (h : nextLine buffer = none) : newline ∉ buffer := by
  rw [nextLine] at h
  split at h
  · rename_i hdrop
    intro hmem
    have hall := List.dropWhile_eq_nil_iff.mp hdrop newline hmem
    simp at hall
  · cases h

theorem nextLine_some {buffer line rest : Bytes} (h : nextLine buffer = some (line, rest)) :
    buffer = line ++ newline :: rest ∧ newline ∉ line := by
  rw [nextLine] at h
  split at h
  · cases h
  · rename_i b r hdrop
    cases h
    have hb : b = newline := by
      have hhead := List.head?_dropWhile_not (fun b : UInt8 => decide (b ≠ newline)) buffer
      rw [hdrop] at hhead
      simpa using hhead
    refine ⟨?_, fun hmem => ?_⟩
    · have happ := List.takeWhile_append_dropWhile (p := fun b : UInt8 => decide (b ≠ newline))
        (l := buffer)
      rw [hdrop, hb] at happ
      exact happ.symm
    · simpa using List.mem_takeWhile_imp hmem

variable (numberText maxLineBytes) in
/-- The loop makes of its input what is made of the lines in it, and keeps the rest. -/
theorem loop_eq (n : ℕ) (r : Reader) (hn : r.buffer.length ≤ n) :
    loop numberText maxLineBytes n r =
      (⟨join newline ((split newline r.buffer).1.drop
          (taken numberText maxLineBytes (split newline r.buffer).1)) (split newline r.buffer).2,
        r.lines + taken numberText maxLineBytes (split newline r.buffer).1⟩,
      outcomes numberText maxLineBytes r.lines (split newline r.buffer).1) := by
  induction n generalizing r with
  | zero =>
    have hnil : r.buffer = [] := List.length_eq_zero_iff.mp (Nat.le_zero.mp hn)
    obtain ⟨buffer, lines⟩ := r
    subst hnil
    rfl
  | succ n ih =>
    obtain ⟨buffer, lines⟩ := r
    rw [loop]
    split
    · rename_i h
      rw [split_of_free (nextLine_none h)]
      rfl
    · rename_i line rest h
      obtain ⟨rfl, hfree⟩ := nextLine_some h
      have hlen : rest.length ≤ n := by
        simp only [List.length_append, List.length_cons] at hn
        omega
      have hrest := ih ⟨rest, lines + 1⟩ hlen
      rw [split_line hfree]
      cases hj : judge numberText maxLineBytes line with
      | blank =>
        simp only [hj, hrest, taken, outcomes, List.drop_succ_cons, Nat.add_assoc, Nat.add_comm 1]
      | message value =>
        simp only [hj, hrest, taken, outcomes, List.drop_succ_cons, Nat.add_assoc, Nat.add_comm 1]
      | fails e =>
        simp only [hj, taken, outcomes, List.drop_succ_cons, List.drop_zero, join_split]

end Spec

end Bitmine.LineJsonPeer
