import Bitmine.Lib.Trace

namespace Bitmine.Admission

open Bitmine.Lib.Trace

structure Limits where
  maxConnections : ℕ
  maxConnectionsPerIp : ℕ
  maxUnauthenticatedPerIp : ℕ

structure Socket where
  remoteIp : String
  isOpen : Bool
  authenticated : Bool

abbrev Counter := String → Option ℕ

structure Gateway where
  activeSockets : ℕ
  socketsByIp : Counter
  unauthenticatedByIp : Counter
  sockets : List Socket

def Gateway.empty : Gateway := ⟨0, fun _ => none, fun _ => none, []⟩

def remoteIp : Option String → String
  | some address => String.ofList (if "::ffff:".toList.isPrefixOf address.toList then
      address.toList.drop 7 else address.toList)
  | none => "unknown"

structure Refusal where
  code : ℕ
  message : String
  deriving DecidableEq

def refusal (limits : Limits) (g : Gateway) (ip : String) : Option Refusal :=
  if limits.maxConnections ≤ g.activeSockets then some ⟨20, "Gateway connection limit reached"⟩
  else if limits.maxConnectionsPerIp ≤ (g.socketsByIp ip).getD 0 then
    some ⟨20, "Gateway per-IP limit reached"⟩
  else if limits.maxUnauthenticatedPerIp ≤ (g.unauthenticatedByIp ip).getD 0 then
    some ⟨24, "Too many unauthenticated connections"⟩
  else none

def Counter.set (counter : Counter) (ip : String) (n : ℕ) : Counter :=
  Function.update counter ip (some n)

def decrementIpCounter (counter : Counter) (ip : String) : Counter :=
  let remaining := (counter ip).getD 1 - 1
  if remaining = 0 then Function.update counter ip none else counter.set ip remaining

def accept (limits : Limits) (g : Gateway) (remoteAddress : Option String) : Gateway :=
  let ip := remoteIp remoteAddress
  match refusal limits g ip with
  | some _ => g
  | none =>
    { activeSockets := g.activeSockets + 1
      socketsByIp := g.socketsByIp.set ip ((g.socketsByIp ip).getD 0 + 1)
      unauthenticatedByIp := g.unauthenticatedByIp.set ip ((g.unauthenticatedByIp ip).getD 0 + 1)
      sockets := g.sockets ++ [⟨ip, true, false⟩] }

def onAuthorized (g : Gateway) (i : ℕ) : Gateway :=
  match g.sockets[i]? with
  | some s =>
    if s.authenticated then g
    else { g with
      sockets := g.sockets.set i { s with authenticated := true }
      unauthenticatedByIp := decrementIpCounter g.unauthenticatedByIp s.remoteIp }
  | none => g

def onClose (g : Gateway) (i : ℕ) : Gateway :=
  match g.sockets[i]? with
  | some s =>
    if s.isOpen then
      { activeSockets := g.activeSockets - 1
        socketsByIp := decrementIpCounter g.socketsByIp s.remoteIp
        unauthenticatedByIp := if s.authenticated then g.unauthenticatedByIp
          else decrementIpCounter g.unauthenticatedByIp s.remoteIp
        sockets := g.sockets.set i { s with isOpen := false } }
    else g
  | none => g

inductive Event where
  | connection (remoteAddress : Option String)
  | authorized (i : ℕ)
  | close (i : ℕ)

def next (limits : Limits) (g : Gateway) : Event → Gateway
  | .connection remoteAddress => accept limits g remoteAddress
  | .authorized i => onAuthorized g i
  | .close i => onClose g i

def fromIp (ip : String) (s : Socket) : Bool := s.isOpen && s.remoteIp = ip

def unauthenticatedFrom (ip : String) (s : Socket) : Bool :=
  s.isOpen && !s.authenticated && s.remoteIp = ip

structure Exact (g : Gateway) : Prop where
  active : g.activeSockets = g.sockets.countP Socket.isOpen
  byIp : ∀ ip, (g.socketsByIp ip).getD 0 = g.sockets.countP (fromIp ip)
  unauthenticated : ∀ ip, (g.unauthenticatedByIp ip).getD 0 =
    g.sockets.countP (unauthenticatedFrom ip)

structure WithinLimits (limits : Limits) (g : Gateway) : Prop where
  active : g.sockets.countP Socket.isOpen ≤ limits.maxConnections
  byIp : ∀ ip, g.sockets.countP (fromIp ip) ≤ limits.maxConnectionsPerIp
  unauthenticated : ∀ ip, g.sockets.countP (unauthenticatedFrom ip) ≤ limits.maxUnauthenticatedPerIp

/-- A socket that has closed unauthorized is authorized only when no other
socket of its address waits for its authorization. -/
def Timely (g : Gateway) : Event → Prop
  | .authorized i => ∀ s, g.sockets[i]? = some s → s.isOpen = false → s.authenticated = false →
      g.sockets.countP (unauthenticatedFrom s.remoteIp) = 0
  | _ => True

section Counters

variable {counter : Counter} {ip : String}

theorem set_getD (n : ℕ) (ip' : String) : (counter.set ip n ip').getD 0 =
    if ip' = ip then n else (counter ip').getD 0 := by
  by_cases h : ip' = ip
  · subst h
    simp [Counter.set]
  · simp [Counter.set, h]

/-- On the numbers, with absent entries read as zero, a decrement is a
subtraction that stops at zero. -/
theorem decrement_getD (ip' : String) : (decrementIpCounter counter ip ip').getD 0 =
    (counter ip').getD 0 - (if ip = ip' then 1 else 0) := by
  rw [decrementIpCounter]
  by_cases h : ip' = ip
  · subst h
    cases hc : counter ip' with
    | none => simp
    | some n =>
      by_cases hn : n - 1 = 0
      · simp [hn]
      · simp [hn, Counter.set]
  · by_cases hz : (counter ip).getD 1 - 1 = 0
    · simp [hz, h, Ne.symm h]
    · simp [hz, Counter.set, h, Ne.symm h]

end Counters

section Counts

variable {l : List Socket} {i : ℕ} {s s' : Socket}

theorem lt_of_getElem? (h : l[i]? = some s) : i < l.length := (List.getElem?_eq_some_iff.mp h).1

theorem countP_changed (p : Socket → Bool) (h : l[i]? = some s) :
    (l.set i s').countP p = l.countP p - (if p s then 1 else 0) + (if p s' then 1 else 0) := by
  have hlt := lt_of_getElem? h
  have hs : l[i] = s := (List.getElem?_eq_some_iff.mp h).2
  rw [List.countP_set hlt, hs]

theorem countP_pos_of_getElem? {p : Socket → Bool} (h : l[i]? = some s) (hp : p s = true) :
    0 < l.countP p := List.countP_pos_iff.mpr ⟨s, List.mem_of_getElem? h, hp⟩

end Counts

section Steps

variable {limits : Limits} {g : Gateway} {i : ℕ}

theorem refusal_none {ip : String} (h : refusal limits g ip = none) :
    g.activeSockets < limits.maxConnections ∧
    (g.socketsByIp ip).getD 0 < limits.maxConnectionsPerIp ∧
    (g.unauthenticatedByIp ip).getD 0 < limits.maxUnauthenticatedPerIp := by
  rw [refusal] at h
  split at h
  · cases h
  · split at h
    · cases h
    · split at h
      · cases h
      · omega

theorem fromIp_new (ip ip' : String) : fromIp ip' ⟨ip, true, false⟩ = decide (ip' = ip) := by
  simp [fromIp, eq_comm]

theorem unauthenticatedFrom_new (ip ip' : String) :
    unauthenticatedFrom ip' ⟨ip, true, false⟩ = decide (ip' = ip) := by
  simp [unauthenticatedFrom, eq_comm]

theorem accept_exact (h : Exact g) (remoteAddress : Option String) :
    Exact (accept limits g remoteAddress) := by
  unfold accept
  dsimp only
  split
  · exact h
  · refine ⟨?_, fun ip => ?_, fun ip => ?_⟩
    · simp [h.active]
    · rw [set_getD, List.countP_append, List.countP_singleton, fromIp_new, h.byIp, h.byIp]
      by_cases hip : ip = remoteIp remoteAddress <;> simp [hip]
    · rw [set_getD, List.countP_append, List.countP_singleton, unauthenticatedFrom_new,
        h.unauthenticated, h.unauthenticated]
      by_cases hip : ip = remoteIp remoteAddress <;> simp [hip]

theorem accept_within (h : Exact g) (hl : WithinLimits limits g) (remoteAddress : Option String) :
    WithinLimits limits (accept limits g remoteAddress) := by
  unfold accept
  dsimp only
  split
  · exact hl
  · rename_i hnone
    obtain ⟨hactive, hip, hunauth⟩ := refusal_none hnone
    rw [h.active] at hactive
    rw [h.byIp] at hip
    rw [h.unauthenticated] at hunauth
    refine ⟨?_, fun ip => ?_, fun ip => ?_⟩
    · rw [List.countP_append, List.countP_singleton, if_pos rfl]
      omega
    · rw [List.countP_append, List.countP_singleton, fromIp_new]
      by_cases he : ip = remoteIp remoteAddress
      · simpa [he] using hip
      · simpa [he] using hl.byIp ip
    · rw [List.countP_append, List.countP_singleton, unauthenticatedFrom_new]
      by_cases he : ip = remoteIp remoteAddress
      · simpa [he] using hunauth
      · simpa [he] using hl.unauthenticated ip

/-- A handler changes one socket and never opens it or takes its authorization back. -/
structure Settles (s s' : Socket) : Prop where
  remoteIp : s'.remoteIp = s.remoteIp
  isOpen : s'.isOpen = true → s.isOpen = true
  authenticated : s.authenticated = true → s'.authenticated = true

theorem countP_settles {l : List Socket} {s s' : Socket} (h : l[i]? = some s)
    {p : Socket → Bool} (hp : p s' = true → p s = true) : (l.set i s').countP p ≤ l.countP p := by
  rw [countP_changed p h]
  have hpos : p s = true → 0 < l.countP p := countP_pos_of_getElem? h
  by_cases hs' : p s' = true
  · have := hpos (hp hs')
    simp only [hp hs', hs', if_true]
    omega
  · simp only [hs', Bool.false_eq_true, if_false]
    omega

theorem WithinLimits.of_settles {g' : Gateway} {s : Socket} (hl : WithinLimits limits g)
    (h : g.sockets[i]? = some s) (s' : Socket) (hs : Settles s s') (hg : g'.sockets = g.sockets.set i s') :
    WithinLimits limits g' := by
  refine ⟨?_, fun ip => ?_, fun ip => ?_⟩
  · rw [hg]
    exact (countP_settles h hs.isOpen).trans hl.active
  · rw [hg]
    refine (countP_settles h (fun hp => ?_)).trans (hl.byIp ip)
    simp only [fromIp, Bool.and_eq_true, decide_eq_true_eq, hs.remoteIp] at hp ⊢
    exact ⟨hs.isOpen hp.1, hp.2⟩
  · rw [hg]
    refine (countP_settles h (fun hp => ?_)).trans (hl.unauthenticated ip)
    simp only [unauthenticatedFrom, Bool.and_eq_true, Bool.not_eq_true', decide_eq_true_eq,
      hs.remoteIp] at hp ⊢
    refine ⟨⟨hs.isOpen hp.1.1, ?_⟩, hp.2⟩
    by_contra ha
    rw [hs.authenticated (by simpa using ha)] at hp
    cases hp.1.2

theorem onAuthorized_within (hl : WithinLimits limits g) : WithinLimits limits (onAuthorized g i) := by
  rw [onAuthorized]
  split
  · rename_i s hs
    split
    · exact hl
    · exact hl.of_settles hs { s with authenticated := true } ⟨rfl, id, fun _ => rfl⟩ rfl
  · exact hl

theorem onClose_within (hl : WithinLimits limits g) : WithinLimits limits (onClose g i) := by
  rw [onClose]
  split
  · rename_i s hs
    split
    · exact hl.of_settles hs { s with isOpen := false } ⟨rfl, fun h => (by cases h), id⟩ rfl
    · exact hl
  · exact hl

theorem onAuthorized_exact (h : Exact g) (ht : Timely g (.authorized i)) :
    Exact (onAuthorized g i) := by
  rw [onAuthorized]
  split
  · rename_i s hs
    split
    · exact h
    · rename_i hauth
      have hauth : s.authenticated = false := by simpa using hauth
      refine ⟨?_, fun ip => ?_, fun ip => ?_⟩
      · rw [h.active, countP_changed _ hs]
        by_cases hopen : s.isOpen = true
        · have := countP_pos_of_getElem? (p := Socket.isOpen) hs hopen
          simp only [hopen, if_true]
          omega
        · simp [hopen]
      · rw [h.byIp, countP_changed _ hs]
        by_cases hip : fromIp ip s = true
        · have := countP_pos_of_getElem? hs hip
          simp only [fromIp] at hip ⊢
          simp only [hip, if_true]
          omega
        · simp only [fromIp] at hip ⊢
          simp [hip]
      · rw [decrement_getD, h.unauthenticated, countP_changed _ hs]
        simp only [unauthenticatedFrom, hauth, Bool.not_false, Bool.not_true, Bool.and_true,
          Bool.and_false, Bool.false_and, Bool.false_eq_true, if_false, Nat.add_zero]
        by_cases hip : s.remoteIp = ip
        · cases hopen : s.isOpen with
          | true => simp [hip]
          | false =>
            -- the socket is gone, and so are all others that the decrement could take off
            have hzero := ht s hs hopen hauth
            rw [hip] at hzero
            simp [hip, hzero]
        · simp [hip]
  · exact h

theorem onClose_exact (h : Exact g) : Exact (onClose g i) := by
  rw [onClose]
  split
  · rename_i s hs
    split
    · rename_i hopen
      refine ⟨?_, fun ip => ?_, fun ip => ?_⟩
      · rw [h.active, countP_changed _ hs]
        simp [hopen]
      · rw [decrement_getD, h.byIp, countP_changed _ hs]
        by_cases hip : s.remoteIp = ip <;> simp [fromIp, hopen, hip]
      · rw [countP_changed _ hs]
        cases hauth : s.authenticated with
        | true =>
          rw [if_pos rfl, h.unauthenticated]
          simp [unauthenticatedFrom, hauth]
        | false =>
          rw [if_neg (by simp), decrement_getD, h.unauthenticated]
          by_cases hip : s.remoteIp = ip <;> simp [unauthenticatedFrom, hopen, hauth, hip]
    · exact h
  · exact h

theorem next_exact (e : Event) (h : Exact g) (hl : WithinLimits limits g) (ht : Timely g e) :
    Exact (next limits g e) ∧ WithinLimits limits (next limits g e) := by
  cases e with
  | connection remoteAddress => exact ⟨accept_exact h _, accept_within h hl _⟩
  | authorized i => exact ⟨onAuthorized_exact h ht, onAuthorized_within hl⟩
  | close i => exact ⟨onClose_exact h, onClose_within hl⟩

end Steps

theorem empty_exact : Exact .empty := ⟨rfl, fun _ => rfl, fun _ => rfl⟩

theorem empty_within (limits : Limits) : WithinLimits limits .empty :=
  ⟨Nat.zero_le _, fun _ => Nat.zero_le _, fun _ => Nat.zero_le _⟩

/-- After every sequence of events without an authorization that comes too late
for a socket whose address has others waiting, the counters are exact and no
limit is exceeded. -/
theorem counters_exact {limits : Limits} {g : Gateway} (h : Reach (next limits) Timely .empty g) :
    (g.activeSockets = g.sockets.countP Socket.isOpen ∧
      ∀ ip, (g.socketsByIp ip).getD 0 = g.sockets.countP (fromIp ip) ∧
        (g.unauthenticatedByIp ip).getD 0 = g.sockets.countP (unauthenticatedFrom ip)) ∧
    g.sockets.countP Socket.isOpen ≤ limits.maxConnections ∧
    ∀ ip, g.sockets.countP (fromIp ip) ≤ limits.maxConnectionsPerIp ∧
      g.sockets.countP (unauthenticatedFrom ip) ≤ limits.maxUnauthenticatedPerIp := by
  obtain ⟨hexact, hwithin⟩ := h.invariant
    (I := fun g => Exact g ∧ WithinLimits limits g)
    (fun _ e hi ht => next_exact e hi.1 hi.2 ht) ⟨empty_exact, empty_within limits⟩
  exact ⟨⟨hexact.active, fun ip => ⟨hexact.byIp ip, hexact.unauthenticated ip⟩⟩, hwithin.active,
    fun ip => ⟨hwithin.byIp ip, hwithin.unauthenticated ip⟩⟩

section Sample

def timely (g : Gateway) : Event → Bool
  | .authorized i => (g.sockets[i]?).all (fun s => s.isOpen || s.authenticated ||
      g.sockets.countP (unauthenticatedFrom s.remoteIp) = 0)
  | _ => true

theorem timely_sound (g : Gateway) (e : Event) (h : timely g e = true) : Timely g e := by
  cases e with
  | authorized i =>
    intro s hs hopen hauth
    simpa [timely, hs, hopen, hauth] using h
  | connection | close => trivial

def sampleLimits : Limits := ⟨10, 10, 2⟩

def sampleEvents : List Event :=
  [.connection (some "::ffff:10.0.0.1"), .connection (some "10.0.0.1"), .authorized 1, .close 0,
    .authorized 0]

theorem counters_exact_sample : ∃ g, Reach (next sampleLimits) Timely .empty g ∧
    g.sockets.length = 2 ∧ g.socketsByIp "10.0.0.1" = some 1 ∧
    (g.unauthenticatedByIp "10.0.0.1").getD 0 =
      g.sockets.countP (unauthenticatedFrom "10.0.0.1") := by
  have hreplay : (replay (next sampleLimits) timely .empty sampleEvents).map
      (fun g => (g.sockets.length, g.socketsByIp "10.0.0.1")) = some (2, some 1) := by
    decide +kernel
  obtain ⟨g, hg, hv⟩ := Option.map_eq_some_iff.mp hreplay
  obtain ⟨hlength, hip⟩ := Prod.mk.inj hv
  have hrun := replay_reach timely_sound hg
  exact ⟨g, hrun, hlength, hip, ((counters_exact hrun).1.2 "10.0.0.1").2⟩

/-- The first of two sockets closes and is authorized afterwards, which takes the
second one out of the count; two more are then admitted. -/
theorem late_authorization_miscounts : ¬ ∀ (limits : Limits) (g : Gateway),
    Reach (next limits) (fun _ _ => True) .empty g →
    (g.activeSockets = g.sockets.countP Socket.isOpen ∧
      ∀ ip, (g.socketsByIp ip).getD 0 = g.sockets.countP (fromIp ip) ∧
        (g.unauthenticatedByIp ip).getD 0 = g.sockets.countP (unauthenticatedFrom ip)) ∧
    g.sockets.countP Socket.isOpen ≤ limits.maxConnections ∧
    ∀ ip, g.sockets.countP (fromIp ip) ≤ limits.maxConnectionsPerIp ∧
      g.sockets.countP (unauthenticatedFrom ip) ≤ limits.maxUnauthenticatedPerIp := by
  intro h
  have hreplay : (replay (next sampleLimits) (fun _ _ => true) .empty
      [.connection (some "10.0.0.1"), .connection (some "10.0.0.1"), .close 0, .authorized 0,
        .connection (some "10.0.0.1"), .connection (some "10.0.0.1")]).map
      (fun g => g.sockets.countP (unauthenticatedFrom "10.0.0.1")) = some 3 := by
    decide +kernel
  obtain ⟨g, hg, hcount⟩ := Option.map_eq_some_iff.mp hreplay
  have hlimit := ((h sampleLimits g (replay_reach (fun _ _ _ => trivial) hg)).2.2 "10.0.0.1").2
  rw [hcount] at hlimit
  exact absurd hlimit (by decide)

end Sample

end Bitmine.Admission
