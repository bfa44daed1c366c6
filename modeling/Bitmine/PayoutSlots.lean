import Bitmine.Schedule

namespace Bitmine.PayoutSlots

open Bitmine.Lib.Await Bitmine.Lib.Watch Bitmine.Lib.Throwing Bitmine.Lib.History
open Bitmine.Schema Bitmine.Schedule

structure Claims where
  claimed : RunKey → List String
  granted : RunKey → List String

def Claims.add (g : Claims) (key : RunKey) (slot : String) (run : Bool) : Claims where
  claimed := Function.update g.claimed key (slot :: g.claimed key)
  granted := if run then Function.update g.granted key (slot :: g.granted key) else g.granted

def note (s : Settings) (r : ScheduleCall) (_ : Instant) (g : Claims) : Claims :=
  match r with
  | .claimSlot key slot => g.add key slot (claimSlot s key slot).2
  | _ => g

variable (zones : Zones) (env : Environment)

def claims : Machine (Settings × Claims) ScheduleCall Instant Change :=
  watched (scheduler zones env) note

def opening (s : Settings) : Settings × Claims :=
  (s, ⟨fun key => (s.lastRunSlot key).toList, fun key => (s.lastRunSlot key).toList⟩)

/-- What the notes under a key say, with the label that is stored. -/
structure Agrees (last : Option String) (claimed granted : List String) : Prop where
  last : claimed.head? = last
  members : ∀ slot, slot ∈ granted ↔ slot ∈ claimed
  once : granted.Nodup ↔ Contiguous claimed

theorem Agrees.opening (last : Option String) : Agrees last last.toList last.toList := by
  cases last with
  | none => exact ⟨rfl, fun _ => Iff.rfl, iff_of_true List.nodup_nil contiguous_nil⟩
  | some slot =>
    refine ⟨rfl, fun _ => Iff.rfl, iff_of_true (List.nodup_singleton slot) ?_⟩
    exact (contiguous_cons_of_ne (by simp)).mpr ⟨by simp, contiguous_nil⟩

theorem Agrees.again {slot : String} {claimed granted : List String}
    (h : Agrees (some slot) claimed granted) : Agrees (some slot) (slot :: claimed) granted := by
  obtain ⟨l, rfl⟩ : ∃ l, claimed = slot :: l := by
    cases claimed with
    | nil => cases h.last
    | cons a l => exact ⟨l, by rw [show a = slot from Option.some.inj h.last]⟩
  refine ⟨rfl, fun x => (h.members x).trans ?_, h.once.trans contiguous_cons_self.symm⟩
  simp

theorem Agrees.grant {last : Option String} {slot : String} {claimed granted : List String}
    (h : Agrees last claimed granted) (hne : last ≠ some slot) :
    Agrees (some slot) (slot :: claimed) (slot :: granted) := by
  refine ⟨rfl, fun x => ?_, ?_⟩
  · rw [List.mem_cons, List.mem_cons, h.members]
  · rw [List.nodup_cons, contiguous_cons_of_ne (h.last ▸ hne), h.once, h.members]

def Faithful (s : Settings × Claims) : Prop :=
  ∀ key, Agrees (s.1.lastRunSlot key) (s.2.claimed key) (s.2.granted key)

theorem Faithful.claim {s : Settings} {g : Claims} (h : Faithful (s, g)) (key : RunKey)
    (slot : String) : Faithful ((claimSlot s key slot).1, g.add key slot (claimSlot s key slot).2) := by
  intro key'
  by_cases hlast : s.lastRunSlot key = some slot
  · simp only [claimSlot, if_pos hlast, Claims.add, Bool.false_eq_true, if_false]
    by_cases hkey : key' = key
    · subst key'
      have hagrees : Agrees (some slot) (g.claimed key) (g.granted key) := hlast ▸ h key
      simp only [hlast, Function.update_self]
      exact hagrees.again
    · simp only [Function.update_of_ne hkey]
      exact h key'
  · simp only [claimSlot, if_neg hlast, Claims.add, if_true]
    by_cases hkey : key' = key
    · subst key'
      simp only [Function.update_self]
      exact (h key).grant hlast
    · simp only [Function.update_of_ne hkey]
      exact h key'

theorem effect_faithful {s s' : Settings × Claims} {r : ScheduleCall} {now : Instant}
    {o : Option ScheduleCall} (h : Faithful s) (he : (claims zones env).effect s r now = .ok (s', o)) :
    Faithful s' := by
  obtain ⟨he, hg⟩ := watched_effect_ok he
  obtain ⟨s₁, g⟩ := s'
  cases hg
  have he : effect zones env s.1 r now = .ok (s₁, o) := he
  cases r with
  | claimScheduledRun | claimOperatorScheduledRun | upsert =>
    cases he
    exact h
  | claimSlot key slot =>
    cases he
    exact Faithful.claim h key slot
  | updatePayoutSchedule dto =>
    simp only [effect, bind_eq_ok, pure_eq_ok] at he
    obtain ⟨_, _, he⟩ := he
    cases he
    exact h

/-- However claims, and changes of the schedule, interleave: no slot is granted
twice exactly where no slot is claimed again after another one has been claimed. -/
theorem slots_once_iff {s : Settings} {c : Config (Settings × Claims) ScheduleCall}
    (h : (claims zones env).Reaches (.idle (opening s)) c) (key : RunKey) :
    (c.shared.2.granted key).Nodup ↔ Contiguous (c.shared.2.claimed key) := by
  have hout := @Outline.of_invariant _ _ _ _ (claims zones env) Faithful
    (fun _ _ _ _ _ hs he => effect_faithful zones env hs he) (fun _ e hs => by cases e; exact hs)
  have hopen : Faithful (opening s) := fun key => .opening (s.lastRunSlot key)
  exact ((hout.run (keyed_shared _) (Outline.idle hopen) h.allowed).inv key).once

section Sample

def utcZones : Zones where
  isValidZone timezone := timezone = "UTC"
  localDay _ now := now / 86400000
  atTime _ day time := day * 86400000 + (time.hour * 60 + time.minute) * 60000
  plusDay _ t := t + 86400000

def sampleEnvironment : Environment := ⟨"UTC", fun _ => 1, fun _ => 0⟩

def claimsAt (pid : ℕ) (minutes : List ℤ) : List (Action ScheduleCall Instant Change) :=
  .call pid .claimScheduledRun :: minutes.map (fun m => .resolve pid (m * 60000))

def switchesTo (pid : ℕ) (mode : PayoutScheduleMode) (minutes : List ℤ) :
    List (Action ScheduleCall Instant Change) :=
  .call pid (.updatePayoutSchedule ⟨mode, 60, 5, defaultDailyTime, "UTC", .operator, 200,
    500, fun _ => 1, fun _ => 0⟩) :: minutes.map (fun m => .resolve pid (m * 60000))

def sampleDays : List (Action ScheduleCall Instant Change) :=
  claimsAt 0 [20] ++ claimsAt 1 [21] ++ [.resolve 0 1320000, .resolve 1 1380000] ++
    claimsAt 0 [1460, 1461]

theorem slots_once_sample : ∃ c, (claims utcZones sampleEnvironment).Reaches
      (.idle (opening ⟨none, fun _ => none⟩)) c ∧
    c.shared.2.claimed .customers =
      ["daily:UTC:1970-01-02", "daily:UTC:1970-01-01", "daily:UTC:1970-01-01"] ∧
    ((c.shared.2.granted .customers).Nodup ↔ Contiguous (c.shared.2.claimed .customers)) := by
  have hexec : ((claims utcZones sampleEnvironment).exec (.idle (opening ⟨none, fun _ => none⟩))
      sampleDays).map (fun c => c.shared.2.claimed .customers) =
      some ["daily:UTC:1970-01-02", "daily:UTC:1970-01-01", "daily:UTC:1970-01-01"] := by
    decide +kernel
  obtain ⟨c, hc, hv⟩ := Option.map_eq_some_iff.mp hexec
  have hreach := Machine.exec_reaches hc
  exact ⟨c, hreach, hv, slots_once_iff _ _ hreach .customers⟩

def times (acts : List (Action ScheduleCall Instant Change)) : List Instant :=
  acts.filterMap (fun act => match act with
    | .resolve _ now => some now
    | .rejectAfter _ now _ => some now
    | _ => none)

def sampleSwitches : List (Action ScheduleCall Instant Change) :=
  claimsAt 0 [20, 20] ++ switchesTo 1 .interval [25, 25] ++ claimsAt 0 [30, 30] ++
    switchesTo 1 .daily [35, 35] ++ claimsAt 0 [40, 40]

theorem switching_back_grants_twice : ¬ ∀ (zones : Zones) (env : Environment) (s : Settings)
    (acts : List (Action ScheduleCall Instant Change)) (c : Config (Settings × Claims) ScheduleCall),
    (times acts).Pairwise (· ≤ ·) → (claims zones env).exec (.idle (opening s)) acts = some c →
    ∀ key, (c.shared.2.granted key).Nodup := by
  intro h
  have hexec : ((claims utcZones sampleEnvironment).exec (.idle (opening ⟨none, fun _ => none⟩))
      sampleSwitches).map (fun c => c.shared.2.granted .customers) =
      some ["daily:UTC:1970-01-01", "interval:60:5:0", "daily:UTC:1970-01-01"] := by
    decide +kernel
  obtain ⟨c, hc, hv⟩ := Option.map_eq_some_iff.mp hexec
  have hnodup := h _ _ _ sampleSwitches c (by decide) hc .customers
  rw [hv] at hnodup
  exact absurd hnodup (by decide)

end Sample

end Bitmine.PayoutSlots
