import Bitmine.Lib.Await

namespace Bitmine.Leases

open Bitmine.Lib.Await

def leaseMs : ℕ := 180000

structure Lease where
  token : ℕ
  expiresAt : ℕ
  deriving DecidableEq

/-- The sorted set `gateway:connections:<worker>` with the expiry of its key, the
clock, and the leases that sessions have been granted and not yet released. -/
structure Store where
  members : List Lease
  keyExpiresAt : ℕ
  clock : ℕ
  held : List Lease

inductive LeaseCall where
  | finalize (token : ℕ)
  | acquire (token now expiresAt : ℕ)
  | renewConnection (token : ℕ)
  | renew (token expiresAt : ℕ)
  | zrem (token : ℕ)
  | zcard (token : ℕ)
  | del (token : ℕ)

def LeaseCall.entry : LeaseCall → Bool
  | .finalize _ | .renewConnection _ | .zrem _ => true
  | _ => false

def Store.live (s : Store) : List Lease := if s.keyExpiresAt ≤ s.clock then [] else s.members

def zadd (l : List Lease) (x : Lease) : List Lease := l.filter (fun y => y.token ≠ x.token) ++ [x]

def Store.write (s : Store) (members : List Lease) : Store := { s with members := members }

def acquire (maxConnections : ℕ) (s : Store) (token now expiresAt : ℕ) : Store :=
  let members := s.live.filter (fun y => now < y.expiresAt)
  if maxConnections ≤ members.length then s.write members
  else
    { s with
      members := zadd members ⟨token, expiresAt⟩
      keyExpiresAt := s.clock + leaseMs * 2
      held := s.held ++ [⟨token, expiresAt⟩] }

def renew (s : Store) (token expiresAt : ℕ) : Store :=
  if s.live.any (fun y => y.token = token) then
    { s with
      members := zadd s.live ⟨token, expiresAt⟩
      keyExpiresAt := s.clock + leaseMs * 2
      held := s.held.map (fun y => if y.token = token then ⟨token, expiresAt⟩ else y) }
  else s

def zrem (s : Store) (token : ℕ) : Store :=
  { s with
    members := s.live.filter (fun y => y.token ≠ token)
    held := s.held.filter (fun y => y.token ≠ token) }

def effect (maxConnections : ℕ) (s : Store) (r : LeaseCall) (_ : Unit) :
    Except String (Store × Option LeaseCall) :=
  match r with
  | .finalize token => .ok (s, some (.acquire token s.clock (s.clock + leaseMs)))
  | .acquire token now expiresAt => .ok (acquire maxConnections s token now expiresAt, none)
  | .renewConnection token => .ok (s, some (.renew token (s.clock + leaseMs)))
  | .renew token expiresAt => .ok (renew s token expiresAt, none)
  | .zrem token => .ok (zrem s token, some (.zcard token))
  | .zcard token => .ok (s, if s.live.length = 0 then some (.del token) else none)
  | .del _ => .ok (s.write [], none)

def tick (s : Store) (ms : ℕ) : Store := { s with clock := s.clock + ms }

def leases (maxConnections : ℕ) : Machine Store LeaseCall Unit ℕ :=
  ⟨LeaseCall.entry, effect maxConnections, fun _ _ => none, fun _ r _ => r, tick⟩

def Store.start (clock : ℕ) : Store := ⟨[], 0, clock, []⟩

def Unexpired (s : Store) (x : Lease) : Prop := s.clock < x.expiresAt

/-- A drawn token is new, and the set is deleted only when nobody has taken a
lease since it was found empty. -/
def Undisturbed (s : Store) (r : LeaseCall) (_ : Unit) : Prop :=
  match r with
  | .acquire token _ _ => ∀ x ∈ s.held, x.token ≠ token
  | .del _ => ∀ x ∈ s.live, ¬ Unexpired s x
  | _ => True

/-- Every lease that is held and not expired is in the set, which is within the limit. -/
structure Kept (maxConnections : ℕ) (s : Store) : Prop where
  present : ∀ x ∈ s.held, Unexpired s x → x ∈ s.members
  bounded : s.members.length ≤ maxConnections
  distinct : (s.held.map Lease.token).Nodup
  outlived : ∀ x ∈ s.members, x.expiresAt ≤ s.keyExpiresAt
  fresh : ∀ x ∈ s.members, x.expiresAt ≤ s.clock + leaseMs

def Loc (s : Store) : LeaseCall → Prop
  | .acquire _ now expiresAt => now ≤ s.clock ∧ expiresAt ≤ s.clock + leaseMs
  | .renew _ expiresAt => expiresAt ≤ s.clock + leaseMs
  | _ => True

section Members

variable {maxConnections : ℕ} {s : Store} {l : List Lease} {x y : Lease}

theorem mem_zadd : y ∈ zadd l x ↔ (y ∈ l ∧ y.token ≠ x.token) ∨ y = x := by
  simp [zadd]

theorem zadd_length_le : (zadd l x).length ≤ l.length + 1 := by
  have := List.length_filter_le (fun y : Lease => decide (y.token ≠ x.token)) l
  simp only [zadd, List.length_append, List.length_singleton]
  omega

theorem zadd_length_of_mem (h : l.any (fun y => y.token = x.token) = true) :
    (zadd l x).length ≤ l.length := by
  obtain ⟨y, hy, ht⟩ := List.any_eq_true.mp h
  have hlt : (l.filter (fun y => y.token ≠ x.token)).length < l.length :=
    List.length_filter_lt_length_iff_exists.mpr ⟨y, hy, by simpa using ht⟩
  simp only [zadd, List.length_append, List.length_singleton]
  omega

theorem live_subset (h : y ∈ s.live) : y ∈ s.members := by
  rw [Store.live] at h
  split at h
  · cases h
  · exact h

theorem live_length_le : s.live.length ≤ s.members.length := by
  rw [Store.live]
  split
  · exact Nat.zero_le _
  · exact le_rfl

theorem Kept.mem_live (h : Kept maxConnections s) (hx : x ∈ s.members) (hu : Unexpired s x) :
    x ∈ s.live := by
  rw [Store.live]
  rw [if_neg]
  · exact hx
  · have := h.outlived x hx
    rw [Unexpired] at hu
    omega

end Members

section Commands

variable {maxConnections : ℕ} {s : Store} {token now expiresAt : ℕ}

theorem Kept.mem_purged (h : Kept maxConnections s) (hnow : now ≤ s.clock) {x : Lease}
    (hx : x ∈ s.held) (hu : Unexpired s x) :
    x ∈ s.live.filter (fun y => now < y.expiresAt) := by
  refine List.mem_filter.mpr ⟨h.mem_live (h.present x hx hu) hu, ?_⟩
  exact decide_eq_true (lt_of_le_of_lt hnow hu)

theorem acquire_kept (h : Kept maxConnections s) (hnow : now ≤ s.clock)
    (hexp : expiresAt ≤ s.clock + leaseMs) (hnew : ∀ x ∈ s.held, x.token ≠ token) :
    Kept maxConnections (acquire maxConnections s token now expiresAt) := by
  have hsub : ∀ y ∈ s.live.filter (fun y => now < y.expiresAt), y ∈ s.members :=
    fun y hy => live_subset (List.mem_of_mem_filter hy)
  unfold acquire
  dsimp only
  split
  · refine ⟨fun x hx hu => h.mem_purged hnow hx hu, ?_, h.distinct,
      fun x hx => h.outlived x (hsub x hx), fun x hx => h.fresh x (hsub x hx)⟩
    exact ((List.length_filter_le _ _).trans live_length_le).trans h.bounded
  · rename_i hfree
    refine ⟨?_, ?_, ?_, ?_, ?_⟩
    · intro x hx hu
      obtain hx | hx := List.mem_append.mp hx
      · exact mem_zadd.mpr (.inl ⟨h.mem_purged hnow hx hu, hnew x hx⟩)
      · exact mem_zadd.mpr (.inr (List.mem_singleton.mp hx))
    · have := zadd_length_le (l := s.live.filter (fun y => now < y.expiresAt)) (x := ⟨token, expiresAt⟩)
      dsimp only at this ⊢
      omega
    · rw [List.map_append, List.nodup_append]
      refine ⟨h.distinct, by simp, fun a ha b hb => ?_⟩
      obtain ⟨x, hx, rfl⟩ := List.mem_map.mp ha
      rw [List.map_singleton, List.mem_singleton] at hb
      exact hb ▸ hnew x hx
    · intro x hx
      obtain ⟨hx, _⟩ | rfl := mem_zadd.mp hx
      · have := h.fresh x (hsub x hx)
        dsimp only
        omega
      · dsimp only
        omega
    · intro x hx
      obtain ⟨hx, _⟩ | rfl := mem_zadd.mp hx
      · exact h.fresh x (hsub x hx)
      · exact hexp

theorem renew_kept (h : Kept maxConnections s) (hexp : expiresAt ≤ s.clock + leaseMs) :
    Kept maxConnections (renew s token expiresAt) := by
  rw [renew]
  split
  · rename_i hany
    refine ⟨?_, ?_, ?_, ?_, ?_⟩
    · intro x' hx' hu
      obtain ⟨x, hx, rfl⟩ := List.mem_map.mp hx'
      by_cases ht : x.token = token
      · rw [if_pos ht]
        exact mem_zadd.mpr (.inr rfl)
      · rw [if_neg ht] at hu ⊢
        exact mem_zadd.mpr (.inl ⟨h.mem_live (h.present x hx hu) hu, ht⟩)
    · exact ((zadd_length_of_mem (x := ⟨token, expiresAt⟩) hany).trans live_length_le).trans h.bounded
    · have htokens : (s.held.map (fun y => if y.token = token then ⟨token, expiresAt⟩ else y)).map
          Lease.token = s.held.map Lease.token := by
        rw [List.map_map]
        refine List.map_congr_left (fun x _ => ?_)
        by_cases ht : x.token = token <;> simp [ht]
      dsimp only
      rw [htokens]
      exact h.distinct
    · intro x hx
      obtain ⟨hx, _⟩ | rfl := mem_zadd.mp hx
      · have := h.fresh x (live_subset hx)
        dsimp only
        omega
      · dsimp only
        omega
    · intro x hx
      obtain ⟨hx, _⟩ | rfl := mem_zadd.mp hx
      · exact h.fresh x (live_subset hx)
      · exact hexp
  · exact h

theorem zrem_kept (h : Kept maxConnections s) : Kept maxConnections (zrem s token) := by
  have hsub : ∀ y ∈ s.live.filter (fun y => y.token ≠ token), y ∈ s.members :=
    fun y hy => live_subset (List.mem_of_mem_filter hy)
  refine ⟨?_, ?_, ?_, fun x hx => h.outlived x (hsub x hx), fun x hx => h.fresh x (hsub x hx)⟩
  · intro x hx hu
    obtain ⟨hx, ht⟩ := List.mem_filter.mp hx
    exact List.mem_filter.mpr ⟨h.mem_live (h.present x hx hu) hu, ht⟩
  · exact ((List.length_filter_le _ _).trans live_length_le).trans h.bounded
  · exact h.distinct.sublist (List.Sublist.map _ List.filter_sublist)

theorem del_kept (h : Kept maxConnections s) (hempty : ∀ x ∈ s.live, ¬ Unexpired s x) :
    Kept maxConnections (s.write []) := by
  refine ⟨?_, Nat.zero_le _, h.distinct, fun x hx => (by cases hx), fun x hx => (by cases hx)⟩
  intro x hx hu
  exact absurd hu (hempty x (h.mem_live (h.present x hx hu) hu))

theorem tick_kept (h : Kept maxConnections s) (ms : ℕ) : Kept maxConnections (tick s ms) := by
  refine ⟨fun x hx hu => h.present x hx ?_, h.bounded, h.distinct, h.outlived, fun x hx => ?_⟩
  · simp only [Unexpired, tick] at hu ⊢
    omega
  · have := h.fresh x hx
    simp only [tick]
    omega

theorem Loc.later {s' : Store} {r : LeaseCall} (hclock : s.clock ≤ s'.clock) (h : Loc s r) :
    Loc s' r := by
  cases r with
  | acquire token now expiresAt =>
    simp only [Loc] at h ⊢
    omega
  | renew token expiresAt =>
    simp only [Loc] at h ⊢
    omega
  | finalize | renewConnection | zrem | zcard | del => trivial

theorem effect_clock {r : LeaseCall} {a : Unit} {s' : Store} {o : Option LeaseCall}
    (h : effect maxConnections s r a = .ok (s', o)) : s'.clock = s.clock := by
  cases r with
  | acquire token now expiresAt =>
    cases h
    unfold acquire
    dsimp only
    split <;> rfl
  | renew token expiresAt =>
    cases h
    rw [renew]
    split <;> rfl
  | finalize | renewConnection | zrem | zcard | del =>
    cases h
    rfl

theorem effect_kept {r : LeaseCall} {a : Unit} {s' : Store} {o : Option LeaseCall}
    (h : Kept maxConnections s) (hloc : Loc s r) (hok : Undisturbed s r a)
    (he : effect maxConnections s r a = .ok (s', o)) :
    Kept maxConnections s' ∧ ∀ r' ∈ o, Loc s' r' := by
  cases r with
  | finalize token =>
    cases he
    refine ⟨h, fun r' hr' => ?_⟩
    cases hr'
    exact ⟨le_rfl, le_rfl⟩
  | renewConnection token =>
    cases he
    refine ⟨h, fun r' hr' => ?_⟩
    cases hr'
    exact le_rfl
  | acquire token now expiresAt =>
    cases he
    exact ⟨acquire_kept h hloc.1 hloc.2 hok, fun r' hr' => (by cases hr')⟩
  | renew token expiresAt =>
    cases he
    exact ⟨renew_kept h hloc, fun r' hr' => (by cases hr')⟩
  | zrem token =>
    cases he
    refine ⟨zrem_kept h, fun r' hr' => ?_⟩
    cases hr'
    trivial
  | zcard token =>
    cases he
    refine ⟨h, fun r' hr' => ?_⟩
    split at hr' <;> cases hr'
    trivial
  | del token =>
    cases he
    exact ⟨del_kept h hok, fun r' hr' => (by cases hr')⟩

end Commands

theorem outline (maxConnections : ℕ) : Outline (leases maxConnections) shared Undisturbed
    (fun _ _ => True) (Kept maxConnections) Loc (fun _ s s' => s'.clock = s.clock) where
  entry s r _ he := by
    cases r with
    | finalize | renewConnection | zrem => trivial
    | acquire | renew | zcard | del => cases he
  effect s r a s' o hk hloc hok he := by
    obtain ⟨hk', ho⟩ := effect_kept hk hloc hok he
    exact ⟨hk', effect_clock (a := a) he, ho, fun _ _ hr' => (by cases hr')⟩
  handler s r e r' _ _ hr' := by cases hr'
  background s r b _ hloc := hloc
  event s ms hk _ := ⟨tick_kept hk ms, fun r hr => hr.later (Nat.le_add_right _ _)⟩
  stable s s' r r' _ hg _ hloc := hloc.later hg.ge

theorem start_kept (maxConnections clock : ℕ) : Kept maxConnections (.start clock) :=
  ⟨fun x hx => (by cases hx), Nat.zero_le _, List.nodup_nil, fun x hx => (by cases hx),
    fun x hx => (by cases hx)⟩

def Store.unexpired (s : Store) : List Lease := s.held.filter (fun x => s.clock < x.expiresAt)

theorem Kept.unexpired_length {maxConnections : ℕ} {s : Store} (h : Kept maxConnections s) :
    s.unexpired.length ≤ maxConnections := by
  have hnodup : (s.unexpired.map Lease.token).Nodup :=
    h.distinct.sublist (List.Sublist.map _ List.filter_sublist)
  have hsub : s.unexpired ⊆ s.members := by
    intro x hx
    obtain ⟨hx, hu⟩ := List.mem_filter.mp hx
    exact h.present x hx (show s.clock < x.expiresAt from of_decide_eq_true hu)
  exact ((List.subperm_of_subset (List.Nodup.of_map _ hnodup) hsub).length_le).trans h.bounded

/-- In every run in which a session deletes the set only when it holds no
unexpired lease, every lease that is granted, not released and not expired is
in the set, and there are at most as many as the worker may have connections. -/
theorem leases_do_not_interfere {maxConnections clock : ℕ} {c : Config Store LeaseCall}
    (h : (leases maxConnections).Run (Allowed shared Undisturbed (fun _ _ => True))
      (.idle (.start clock)) c) :
    (∀ x ∈ c.shared.held, c.shared.clock < x.expiresAt → x ∈ c.shared.live) ∧
      c.shared.unexpired.length ≤ maxConnections := by
  have hk := ((outline maxConnections).run (keyed_shared _)
    (Outline.idle (start_kept maxConnections clock)) h).inv
  exact ⟨fun x hx hu => hk.mem_live (hk.present x hx hu) hu, hk.unexpired_length⟩

section Sample

def undisturbed (s : Store) (r : LeaseCall) (_ : Unit) : Bool :=
  match r with
  | .acquire token _ _ => s.held.all (fun x => x.token ≠ token)
  | .del _ => s.live.all (fun x => x.expiresAt ≤ s.clock)
  | _ => true

theorem undisturbed_sound (s : Store) (r : LeaseCall) (a : Unit) (h : undisturbed s r a = true) :
    Undisturbed s r a := by
  cases r with
  | acquire token now expiresAt =>
    exact fun x hx => of_decide_eq_true (List.all_eq_true.mp h x hx)
  | del token =>
    exact fun x hx => Nat.not_lt.mpr (of_decide_eq_true (List.all_eq_true.mp h x hx))
  | finalize | renewConnection | renew | zrem | zcard => trivial

def newTokens (s : Store) (r : LeaseCall) (_ : Unit) : Bool :=
  match r with
  | .acquire token _ _ => s.held.all (fun x => x.token ≠ token)
  | _ => true

def NewToken (s : Store) (r : LeaseCall) (_ : Unit) : Prop :=
  ∀ token now expiresAt, r = .acquire token now expiresAt → ∀ x ∈ s.held, x.token ≠ token

theorem newTokens_sound (s : Store) (r : LeaseCall) (a : Unit) (h : newTokens s r a = true) :
    NewToken s r a := by
  rintro token now expiresAt rfl x hx
  exact of_decide_eq_true (List.all_eq_true.mp h x hx)

def sampleOpen (pid token : ℕ) : List (Action LeaseCall Unit ℕ) :=
  [.call pid (.finalize token), .resolve pid (), .resolve pid ()]

def sampleClose (pid token : ℕ) : List (Action LeaseCall Unit ℕ) :=
  [.call pid (.zrem token), .resolve pid (), .resolve pid ()]

theorem leases_do_not_interfere_sample : ∃ c, (leases 1).Run
      (Allowed shared Undisturbed (fun _ _ => True)) (.idle (.start 0)) c ∧
    c.shared.held = [⟨2, 180060⟩] ∧ c.shared.unexpired.length ≤ 1 := by
  have hexec : ((leases 1).execChecked (testing undisturbed) (.idle (.start 0))
      (sampleOpen 0 1 ++ sampleClose 0 1 ++ [.resolve 0 (), .event 60] ++ sampleOpen 1 2)).map
      (fun c => c.shared.held) = some [⟨2, 180060⟩] := by
    decide +kernel
  obtain ⟨c, hc, hheld⟩ := Option.map_eq_some_iff.mp hexec
  have hrun := Machine.execChecked_run (testing_allowed undisturbed_sound) hc
  exact ⟨c, hrun, hheld, (leases_do_not_interfere hrun).2⟩

/-- The first session finds the set empty, a second is admitted, the first
deletes the set, and a third is admitted beside the second. -/
theorem delete_drops_foreign_lease : ¬ ∀ (maxConnections clock : ℕ) (c : Config Store LeaseCall),
    (leases maxConnections).Run (Allowed shared NewToken (fun _ _ => True))
      (.idle (.start clock)) c →
    (∀ x ∈ c.shared.held, c.shared.clock < x.expiresAt → x ∈ c.shared.live) ∧
      c.shared.unexpired.length ≤ maxConnections := by
  intro h
  have hexec : ((leases 1).execChecked (testing newTokens) (.idle (.start 0))
      (sampleOpen 0 1 ++ sampleClose 0 1 ++ sampleOpen 1 2 ++ [.resolve 0 ()] ++
        sampleOpen 2 3)).map (fun c => c.shared.unexpired.length) = some 2 := by
    decide +kernel
  obtain ⟨c, hc, hlength⟩ := Option.map_eq_some_iff.mp hexec
  have hbound := (h 1 0 c (Machine.execChecked_run (testing_allowed newTokens_sound) hc)).2
  rw [hlength] at hbound
  exact absurd hbound (by decide)

end Sample

end Bitmine.Leases
