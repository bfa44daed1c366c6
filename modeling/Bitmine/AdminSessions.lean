import Bitmine.Lib.Await
import Bitmine.Schema

namespace Bitmine.AdminSessions

open Bitmine.Lib.Await Bitmine.Schema

inductive AdminRole where
  | owner | operator | viewer
  deriving DecidableEq

structure SessionPayload where
  id : Id
  email : String
  displayName : String
  role : AdminRole
  sessionId : String
  csrfToken : String
  createdAt : String
  lastSeenAt : String
  deriving DecidableEq

structure AdminProfile where
  email : String
  displayName : String
  role : AdminRole
  status : EntityStatus

/-- What a call of `getSession` returned, and whether it had started after a
logout had returned. -/
structure Reply where
  late : Bool
  session : Option SessionPayload
  deriving DecidableEq

/-- The key `auth:session:<token>` and the administrators, with two facts about
the past: a logout has returned, and the replies given so far. -/
structure Sessions where
  stored : Option SessionPayload
  admins : Id → Option AdminProfile
  loggedOut : Bool
  replies : List Reply

def Sessions.reply (s : Sessions) (late : Bool) (session : Option SessionPayload) : Sessions :=
  { s with replies := s.replies ++ [⟨late, session⟩] }

def Sessions.put (s : Sessions) (stored : Option SessionPayload) : Sessions :=
  { s with stored := stored }

inductive SessionCall where
  | getSession (late : Bool)
  | get (late : Bool)
  | readAdmin (late : Bool) (session : SessionPayload)
  | del (late : Bool)
  | set (late : Bool) (session : SessionPayload)
  | logout

def SessionCall.entry : SessionCall → Bool
  | .getSession _ | .logout => true
  | _ => false

def revalidate (session : SessionPayload) (admin : AdminProfile) (now : String) : SessionPayload :=
  { session with
    email := admin.email, displayName := admin.displayName, role := admin.role, lastSeenAt := now }

def effect (s : Sessions) (r : SessionCall) (now : String) :
    Except String (Sessions × Option SessionCall) :=
  match r with
  | .getSession late => .ok (s, some (.get late))
  | .get late =>
    match s.stored with
    | none => .ok (s.reply late none, none)
    | some session => .ok (s, some (.readAdmin late session))
  | .readAdmin late session =>
    match s.admins session.id with
    | some admin =>
      if admin.status = .active then .ok (s, some (.set late (revalidate session admin now)))
      else .ok (s, some (.del late))
    | none => .ok (s, some (.del late))
  | .del late => .ok ((s.put none).reply late none, none)
  | .set late session => .ok ((s.put (some session)).reply late (some session), none)
  | .logout => .ok ({ s.put none with loggedOut := true }, none)

inductive Change where
  | expire
  | edit (admins : Id → Option AdminProfile)

def change (s : Sessions) : Change → Sessions
  | .expire => s.put none
  | .edit admins => { s with admins := admins }

def sessions : Machine Sessions SessionCall String Change :=
  ⟨SessionCall.entry, effect, fun _ _ => none, fun _ r _ => r, change⟩

/-- A call knows whether it starts after a logout. -/
def Started (s : Sessions) : SessionCall → Prop
  | .getSession late => late = s.loggedOut
  | _ => True

/-- No session is written back once it has been deleted by a logout. -/
def WritesBefore (s : Sessions) (r : SessionCall) (_ : String) : Prop :=
  match r with
  | .set _ _ => s.loggedOut = false
  | _ => True

structure Final (s : Sessions) : Prop where
  deleted : s.loggedOut = true → s.stored = none
  replies : ∀ reply ∈ s.replies, reply.late = true → reply.session = none

/-- A call that has started after a logout never gets hold of a session. -/
def Loc (s : Sessions) : SessionCall → Prop
  | .getSession late | .get late => late = true → s.loggedOut = true
  | .readAdmin late _ | .del late | .set late _ => late = false
  | .logout => True

section Steps

variable {s : Sessions}

theorem Final.reply (h : Final s) {late : Bool} {session : Option SessionPayload}
    (hr : late = true → session = none) : Final (s.reply late session) := by
  refine ⟨h.deleted, fun reply hm => ?_⟩
  obtain hm | hm := List.mem_append.mp hm
  · exact h.replies reply hm
  · rw [List.mem_singleton.mp hm]
    exact hr

theorem Final.delete (h : Final s) : Final (s.put none) := ⟨fun _ => rfl, h.replies⟩

theorem Loc.mono {s' : Sessions} (hl : s.loggedOut = true → s'.loggedOut = true) {r : SessionCall}
    (h : Loc s r) : Loc s' r := by
  cases r with
  | getSession | get => exact hl ∘ h
  | readAdmin | del | set | logout => exact h

theorem effect_final {r : SessionCall} {now : String} {s' : Sessions} {o : Option SessionCall}
    (h : Final s) (hloc : Loc s r) (hok : WritesBefore s r now) (he : effect s r now = .ok (s', o)) :
    Final s' ∧ (∀ r' ∈ o, Loc s' r') ∧ (s.loggedOut = true → s'.loggedOut = true) := by
  cases r with
  | getSession late =>
    cases he
    exact ⟨h, fun r' hr' => (by cases hr'; exact hloc), id⟩
  | get late =>
    simp only [effect] at he
    split at he
    · cases he
      exact ⟨h.reply (fun _ => rfl), fun r' hr' => (by cases hr'), id⟩
    · rename_i session hstored
      cases he
      refine ⟨h, fun r' hr' => ?_, id⟩
      cases hr'
      -- the key is gone for a call that is late
      refine Bool.eq_false_iff.mpr (fun hlate => ?_)
      rw [h.deleted (hloc hlate)] at hstored
      cases hstored
  | readAdmin late session =>
    simp only [effect] at he
    split at he
    · split at he <;> cases he <;> exact ⟨h, fun r' hr' => (by cases hr'; exact hloc), id⟩
    · cases he
      exact ⟨h, fun r' hr' => (by cases hr'; exact hloc), id⟩
  | del late =>
    cases he
    exact ⟨h.delete.reply (fun _ => rfl), fun r' hr' => (by cases hr'), id⟩
  | set late session =>
    cases he
    have hlate : late = false := hloc
    have hput : Final (s.put (some session)) := by
      refine ⟨fun hl => ?_, h.replies⟩
      have hopen : s.loggedOut = false := hok
      have hclosed : s.loggedOut = true := hl
      rw [hopen] at hclosed
      cases hclosed
    exact ⟨hput.reply (fun ht => (by rw [hlate] at ht; cases ht)), fun r' hr' => (by cases hr'), id⟩
  | logout =>
    cases he
    exact ⟨⟨fun _ => rfl, h.replies⟩, fun r' hr' => (by cases hr'), fun _ => rfl⟩

end Steps

theorem annotated : Annotation sessions Started WritesBefore (fun _ _ => True) Final Loc where
  entry s r _ he hs := by
    cases r with
    | getSession late => exact fun hl => hs ▸ hl
    | logout => trivial
    | get | readAdmin | del | set => cases he
  effect s r now s' o h hloc hok he := by
    obtain ⟨hf, ho, hmono⟩ := effect_final h hloc hok he
    exact ⟨hf, ho, fun _ _ hr' => (by cases hr'), fun _ hr' => hr'.mono hmono⟩
  handler s r e r' _ _ hr' := by cases hr'
  background s r b _ hloc := hloc
  event s e h _ := by
    cases e with
    | expire => exact ⟨h.delete, fun _ hr => hr.mono id⟩
    | edit admins => exact ⟨⟨h.deleted, h.replies⟩, fun _ hr => hr.mono id⟩

/-- In every run in which no session is written back after a logout has deleted
it, the calls that start after the logout all return null. -/
theorem logout_is_final {stored : Option SessionPayload} {admins : Id → Option AdminProfile}
    {c : Config Sessions SessionCall}
    (h : sessions.Run (Admits Started WritesBefore (fun _ _ => True))
      (.idle ⟨stored, admins, false, []⟩) c) :
    ∀ reply ∈ c.shared.replies, reply.late = true → reply.session = none := by
  have hstart : Final ⟨stored, admins, false, []⟩ :=
    ⟨fun hl => (by cases hl), fun reply hm => (by cases hm)⟩
  exact (annotated.run hstart h).1.replies

section Sample

def sampleSession : SessionPayload := ⟨1, "old@example.com", "Old", .viewer, "sid", "csrf", "t0", "t0"⟩

def sampleAdmins : Id → Option AdminProfile := fun id =>
  if id = 1 then some ⟨"owner@example.com", "Owner", .owner, .active⟩ else none

def testStep (writes : Bool) (c : Config Sessions SessionCall) : Action SessionCall String Change → Bool
  | .call _ (.getSession late) => late = c.shared.loggedOut
  | .resolve pid _ | .rejectAfter pid _ _ => match c.calls pid with
    | some (.set _ _) => !(writes && c.shared.loggedOut)
    | _ => true
  | _ => true

theorem testStep_started (c : Config Sessions SessionCall) (act : Action SessionCall String Change)
    (h : testStep false c act = true) :
    Admits Started (fun _ _ _ => True) (fun _ _ => True) c act := by
  cases act with
  | call pid r =>
    cases r with
    | getSession late => exact show late = c.shared.loggedOut from of_decide_eq_true h
    | get | readAdmin | del | set | logout => trivial
  | resolve | rejectAfter => exact fun _ _ => trivial
  | event | reject | background | stop => trivial

theorem testStep_sound (c : Config Sessions SessionCall) (act : Action SessionCall String Change)
    (h : testStep true c act = true) :
    Admits Started WritesBefore (fun _ _ => True) c act := by
  cases act with
  | call pid r =>
    cases r with
    | getSession late => exact show late = c.shared.loggedOut from of_decide_eq_true h
    | get | readAdmin | del | set | logout => trivial
  | resolve pid now | rejectAfter pid now e =>
    intro r hr
    cases r with
    | set late session => simpa [testStep, hr, WritesBefore] using h
    | getSession | get | readAdmin | del | logout => trivial
  | event | reject | background | stop => trivial

def sampleCall (pid : ℕ) (r : SessionCall) (answers : List String) :
    List (Action SessionCall String Change) :=
  .call pid r :: answers.map (.resolve pid)

theorem logout_is_final_sample : ∃ c, sessions.Run
      (Admits Started WritesBefore (fun _ _ => True))
      (.idle ⟨some sampleSession, sampleAdmins, false, []⟩) c ∧
    c.shared.replies.map (fun reply => (reply.late, reply.session.isSome)) =
      [(false, true), (true, false)] ∧
    ∀ reply ∈ c.shared.replies, reply.late = true → reply.session = none := by
  have hexec : (sessions.execChecked (testStep true)
      (.idle ⟨some sampleSession, sampleAdmins, false, []⟩)
      (sampleCall 0 (.getSession false) ["", "", "t1", ""] ++ sampleCall 1 .logout [""] ++
        sampleCall 2 (.getSession true) ["", ""])).map
      (fun c => c.shared.replies.map (fun reply => (reply.late, reply.session.isSome))) =
        some [(false, true), (true, false)] := by
    decide +kernel
  obtain ⟨c, hc, hv⟩ := Option.map_eq_some_iff.mp hexec
  have hrun := Machine.execChecked_run testStep_sound hc
  exact ⟨c, hrun, hv, logout_is_final hrun⟩

/-- A call has read the session before the logout and writes it back afterwards;
a call that starts later gets it. -/
theorem stale_write_revives_session : ¬ ∀ (stored : Option SessionPayload)
    (admins : Id → Option AdminProfile) (c : Config Sessions SessionCall),
    sessions.Run (Admits Started (fun _ _ _ => True) (fun _ _ => True))
      (.idle ⟨stored, admins, false, []⟩) c →
    ∀ reply ∈ c.shared.replies, reply.late = true → reply.session = none := by
  intro h
  have hexec : (sessions.execChecked (testStep false)
      (.idle ⟨some sampleSession, sampleAdmins, false, []⟩)
      (sampleCall 0 (.getSession false) ["", ""] ++ sampleCall 1 .logout [""] ++
        [.resolve 0 "t1", .resolve 0 ""] ++ sampleCall 2 (.getSession true) ["", "", "t2", ""])).map
      (fun c => c.shared.replies.map (fun reply => (reply.late, reply.session.isSome))) =
        some [(false, true), (true, true)] := by
    decide +kernel
  obtain ⟨c, hc, hv⟩ := Option.map_eq_some_iff.mp hexec
  have hall := h _ _ c (Machine.execChecked_run testStep_started hc)
  have hmem : (true, true) ∈ c.shared.replies.map (fun reply => (reply.late, reply.session.isSome)) := by
    rw [hv]
    decide
  obtain ⟨reply, hm, he⟩ := List.mem_map.mp hmem
  obtain ⟨hlate, hsome⟩ := Prod.mk.inj he
  rw [hall reply hm hlate] at hsome
  cases hsome

end Sample

end Bitmine.AdminSessions
