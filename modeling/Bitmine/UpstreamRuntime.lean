import Bitmine.Lib.Await
import Bitmine.Shares

namespace Bitmine.UpstreamRuntime

open Bitmine.Lib.UniqueTable Bitmine.Lib.GroupSum Bitmine.Lib.Throwing Bitmine.Lib.Await
open Bitmine.Schema Bitmine.Shares

structure MonitoredUpstream where
  id : Id
  asset : AssetCode
  priority : ℤ
  enabled : Bool
  failbackCooldownSeconds : ℕ
  lastHealthAt : Option Instant
  lastHealthOk : Option Bool
  lastHealthMessage : Option String

instance : Row MonitoredUpstream := ⟨Id, Unit, MonitoredUpstream.id, fun _ => none⟩

inductive Health where
  | success (id : Id) (succeededAt : Instant)
  | failure (id : Id) (failedAt : Instant) (failbackCooldownSeconds : ℕ)

def Health.id : Health → Id
  | .success id _ => id
  | .failure id _ _ => id

/-- A session on its way through the candidates: what the table held and what the runtime
had been told when they were put in order, and those that have failed since. -/
structure Attempt where
  asset : AssetCode
  now : Instant
  stored : List MonitoredUpstream
  history : List Health
  candidates : List MonitoredUpstream
  failed : List MonitoredUpstream

structure Outcome where
  attempt : Attempt
  connected : Option MonitoredUpstream

structure Runtime where
  unhealthyUntil : Id → Option Instant
  upstreams : Table MonitoredUpstream
  clock : Instant
  history : List Health
  outcomes : List Outcome

structure Reply where
  now : Instant := 0
  order : Order MonitoredUpstream := .asStored

def healthRank : Option Bool → ℕ
  | none => 0
  | some true => 1
  | some false => 2

/-- `UpstreamsService.candidates`. -/
def findMany (order : Order MonitoredUpstream) (rows : List MonitoredUpstream) (asset : AssetCode) :
    List MonitoredUpstream :=
  ((order.arrange rows).filter (fun u => u.asset = asset ∧ u.enabled)).insertionSort (fun u v =>
    u.priority < v.priority ∨
      (u.priority = v.priority ∧ healthRank u.lastHealthOk ≤ healthRank v.lastHealthOk))

def down (unhealthyUntil : Id → Option Instant) (now : Instant) (u : MonitoredUpstream) : ℤ :=
  if (unhealthyUntil u.id).getD 0 > now then 1 else 0

def comparison (unhealthyUntil : Id → Option Instant) (now : Instant) (a b : MonitoredUpstream) : ℤ :=
  let difference := down unhealthyUntil now a - down unhealthyUntil now b
  if difference ≠ 0 then difference else a.priority - b.priority

def candidates (unhealthyUntil : Id → Option Instant) (now : Instant) (all : List MonitoredUpstream) :
    List MonitoredUpstream :=
  all.insertionSort (fun a b => comparison unhealthyUntil now a b ≤ 0)

/-- The awaits of `ensureUpstream` and `connectPool`, those of the runtime included, and of
the `failure` that `close` reports when a connection is lost. -/
inductive Point where
  | begin (asset : AssetCode)
  | findMany (asset : AssetCode) (now : Instant)
  | resolveGatewayProxy (t : Attempt) (u : MonitoredUpstream) (rest : List MonitoredUpstream)
  | connectUpstream (t : Attempt) (u : MonitoredUpstream) (rest : List MonitoredUpstream)
  | markHealthy (t : Attempt) (u : MonitoredUpstream) (rest : List MonitoredUpstream) (lastHealthAt : Instant)
  | resolveByDedupe (t : Attempt) (u : MonitoredUpstream) (rest : List MonitoredUpstream)
  | failure (t : Attempt) (u : MonitoredUpstream) (rest : List MonitoredUpstream) (error : String)
  | markUnhealthy (t : Attempt) (u : MonitoredUpstream) (rest : List MonitoredUpstream) (error : String)
      (lastHealthAt : Instant)
  | raise (t : Attempt) (u : MonitoredUpstream) (rest : List MonitoredUpstream)
  | lose (u : MonitoredUpstream) (error : String)
  | markLost (u : MonitoredUpstream) (error : String) (lastHealthAt : Instant)

def Point.entry : Point → Bool
  | .begin _ => true
  | .lose _ _ => true
  | _ => false

def checked (now : Instant) (ok : Bool) (message : String) (u : MonitoredUpstream) : MonitoredUpstream :=
  { u with lastHealthAt := some now, lastHealthOk := some ok, lastHealthMessage := some message }

namespace Runtime

variable (s : Runtime)

def tick (now : Instant) : Runtime := { s with clock := now }

def finish (o : Outcome) : Runtime := { s with outcomes := s.outcomes ++ [o] }

def forget (id : Id) (now : Instant) : Runtime :=
  { s with
    unhealthyUntil := Function.update s.unhealthyUntil id none
    history := s.history ++ [.success id now] }

def remember (u : MonitoredUpstream) (now : Instant) : Runtime :=
  { s with
    unhealthyUntil := Function.update s.unhealthyUntil u.id (some (now + u.failbackCooldownSeconds * 1000))
    history := s.history ++ [.failure u.id now u.failbackCooldownSeconds] }

def mark (id : Id) (now : Instant) (ok : Bool) (message : String) : Runtime :=
  { s with
    upstreams := s.upstreams.update (fun u => u.id = id) (checked now ok message) (fun _ => ⟨rfl, rfl⟩) }

end Runtime

def proceed (s : Runtime) (t : Attempt) : List MonitoredUpstream → Runtime × Option Point
  | [] => (s.finish ⟨t, none⟩, none)
  | u :: rest => (s, some (.resolveGatewayProxy t u rest))

def Attempt.miss (t : Attempt) (u : MonitoredUpstream) : Attempt := { t with failed := t.failed ++ [u] }

def perform (s : Runtime) (p : Point) (a : Reply) : Except String (Runtime × Option Point) :=
  match p with
  | .begin asset => .ok (s, some (.findMany asset a.now))
  | .findMany asset now =>
    let ordered := candidates s.unhealthyUntil now (findMany a.order s.upstreams.rows asset)
    .ok (proceed s ⟨asset, now, s.upstreams.rows, s.history, ordered, []⟩ ordered)
  | .resolveGatewayProxy t u rest => .ok (s, some (.connectUpstream t u rest))
  | .connectUpstream t u rest => .ok (s.forget u.id a.now, some (.markHealthy t u rest a.now))
  | .markHealthy t u rest lastHealthAt => do
    let _ ← orThrow recordNotFound (s.upstreams.find? (fun v => v.id = u.id))
    pure (s.mark u.id lastHealthAt true "Gateway connection successful", some (.resolveByDedupe t u rest))
  | .resolveByDedupe t u _ => .ok (s.finish ⟨t, some u⟩, none)
  | .failure t u rest error => .ok (s.remember u a.now, some (.markUnhealthy t u rest error a.now))
  | .markUnhealthy t u rest error lastHealthAt =>
    .ok (s.mark u.id lastHealthAt false (slice 500 error), some (.raise t u rest))
  | .raise t u rest => .ok (proceed s (t.miss u) rest)
  | .lose u error => .ok (s.remember u a.now, some (.markLost u error a.now))
  | .markLost u error lastHealthAt => .ok (s.mark u.id lastHealthAt false (slice 500 error), none)

/-- A candidate that throws on its way is a failure; that the failure could not be stored
is ignored. -/
def recover (p : Point) (message : String) : Option Point :=
  match p with
  | .resolveGatewayProxy t u rest => some (.failure t u rest message)
  | .connectUpstream t u rest => some (.failure t u rest message)
  | .markHealthy t u rest _ => some (.failure t u rest message)
  | .resolveByDedupe t u rest => some (.failure t u rest message)
  | .markUnhealthy t u rest _ _ => some (.raise t u rest)
  | _ => none

/-- All sessions of the gateway on one runtime, beside administrators and health checks
that edit the table. -/
def gateway : Machine Runtime Point Reply (Table MonitoredUpstream) where
  entry := Point.entry
  effect s p a := (perform s p a).map (fun r => (r.1.tick a.now, r.2))
  handler := recover
  background _ p _ := p
  event s t := { s with upstreams := t }

def Ticks (s : Runtime) (_ : Point) (a : Reply) : Prop := s.clock ≤ a.now

section Sorting

variable {α : Type} {r s : α → α → Prop} [DecidableRel r]

theorem pairwise_orderedInsert_stable [Std.Total r] [IsTrans α r] (a : α) (l : List α)
    (h : l.Pairwise (fun x y => r x y ∧ (r y x → s x y))) (ha : ∀ x ∈ l, s a x) :
    (l.orderedInsert r a).Pairwise (fun x y => r x y ∧ (r y x → s x y)) := by
  induction l with
  | nil => simp
  | cons b l ih =>
    obtain ⟨hb, hl⟩ := List.pairwise_cons.mp h
    by_cases hab : r a b
    · rw [List.orderedInsert_cons_of_le r l hab]
      refine List.pairwise_cons.mpr ⟨?_, h⟩
      intro x hx
      refine ⟨?_, fun _ => ha x hx⟩
      obtain rfl | hx := List.mem_cons.mp hx
      · exact hab
      · exact IsTrans.trans _ _ _ hab (hb x hx).1
    · rw [List.orderedInsert_of_not_le r l hab]
      refine List.pairwise_cons.mpr ⟨?_, ih hl (fun x hx => ha x (List.mem_cons_of_mem b hx))⟩
      intro x hx
      obtain rfl | hx := (List.mem_orderedInsert r).mp hx
      · exact ⟨(Std.Total.total x b).resolve_left hab, fun h => absurd h hab⟩
      · exact hb x hx

theorem pairwise_insertionSort_stable [Std.Total r] [IsTrans α r] {l : List α} (h : l.Pairwise s) :
    (l.insertionSort r).Pairwise (fun x y => r x y ∧ (r y x → s x y)) := by
  induction l with
  | nil => simp
  | cons a l ih =>
    obtain ⟨ha, hl⟩ := List.pairwise_cons.mp h
    apply pairwise_orderedInsert_stable
    · exact ih hl
    · intro x hx
      exact ha x ((List.mem_insertionSort r).mp hx)

end Sorting

section Order

variable {unhealthyUntil : Id → Option Instant} {now : Instant} {u v : MonitoredUpstream}

theorem comparison_nonpos_iff : comparison unhealthyUntil now u v ≤ 0 ↔
    down unhealthyUntil now u < down unhealthyUntil now v ∨
      (down unhealthyUntil now u = down unhealthyUntil now v ∧ u.priority ≤ v.priority) := by
  simp only [comparison]
  split <;> omega

/-- The order in which upstreams are dialled: those not cooling down first, then by
priority, then by their last health check. -/
def Before (unhealthyUntil : Id → Option Instant) (now : Instant) (u v : MonitoredUpstream) : Prop :=
  comparison unhealthyUntil now u v < 0 ∨ (comparison unhealthyUntil now u v = 0 ∧
    healthRank u.lastHealthOk < healthRank v.lastHealthOk)

theorem candidates_ordered (order : Order MonitoredUpstream) (rows : List MonitoredUpstream)
    (asset : AssetCode) : (candidates unhealthyUntil now (findMany order rows asset)).Pairwise
      (fun u v => ¬ Before unhealthyUntil now v u) := by
  let stored : MonitoredUpstream → MonitoredUpstream → Prop := fun u v =>
    u.priority < v.priority ∨
      (u.priority = v.priority ∧ healthRank u.lastHealthOk ≤ healthRank v.lastHealthOk)
  let dialled : MonitoredUpstream → MonitoredUpstream → Prop := fun u v =>
    comparison unhealthyUntil now u v ≤ 0
  have : IsTrans MonitoredUpstream stored := ⟨fun _ _ _ _ _ => by simp only [stored] at *; omega⟩
  have : Std.Total stored := ⟨fun _ _ => by simp only [stored]; omega⟩
  have : IsTrans MonitoredUpstream dialled := by
    refine ⟨fun _ _ _ _ _ => ?_⟩
    simp only [dialled, comparison_nonpos_iff] at *
    omega
  have : Std.Total dialled := by
    refine ⟨fun _ _ => ?_⟩
    simp only [dialled, comparison_nonpos_iff]
    omega
  have hstored := List.pairwise_insertionSort stored
    ((order.arrange rows).filter (fun u => u.asset = asset ∧ u.enabled))
  refine (pairwise_insertionSort_stable (r := dialled) hstored).imp ?_
  rintro u v ⟨huv, hback⟩ hbefore
  simp only [dialled, stored, comparison_nonpos_iff] at huv hback
  simp only [Before, comparison] at hbefore
  split at hbefore <;> omega

theorem candidates_perm (order : Order MonitoredUpstream) (rows : List MonitoredUpstream)
    (asset : AssetCode) : (candidates unhealthyUntil now (findMany order rows asset)).Perm
      (rows.filter (fun u => u.asset = asset ∧ u.enabled)) := by
  apply (List.perm_insertionSort _ _).trans
  apply (List.perm_insertionSort _ _).trans
  exact (order.perm rows).filter _

end Order

section History

def Health.until : Health → Option Instant
  | .success _ _ => none
  | .failure _ failedAt failbackCooldownSeconds => some (failedAt + failbackCooldownSeconds * 1000)

def lastOf (history : List Health) (id : Id) : Option Health :=
  (history.filter (fun h => h.id = id)).getLast?

def remembered (history : List Health) (id : Id) : Option Instant :=
  (lastOf history id).bind Health.until

theorem remembered_append (history : List Health) (h : Health) :
    remembered (history ++ [h]) = Function.update (remembered history) h.id h.until := by
  ext1 id
  by_cases hid : h.id = id
  · subst hid
    simp [remembered, lastOf, Function.update_self]
  · rw [Function.update_of_ne (Ne.symm hid)]
    simp [remembered, lastOf, hid]

end History

/-- The upstream failed while the attempt was going on. -/
def FailedDuring (s : Runtime) (t : Attempt) (u : MonitoredUpstream) : Prop :=
  ∃ failedAt, t.now ≤ failedAt ∧ .failure u.id failedAt u.failbackCooldownSeconds ∈ s.history

def SucceededDuring (s : Runtime) (t : Attempt) (u : MonitoredUpstream) : Prop :=
  ∃ succeededAt, t.now ≤ succeededAt ∧ .success u.id succeededAt ∈ s.history

/-- An attempt that has these candidates left. -/
structure Attempt.Sound (s : Runtime) (t : Attempt) (rest : List MonitoredUpstream) : Prop where
  began : t.now ≤ s.clock
  history : t.history <+: s.history
  all : t.candidates.Perm (t.stored.filter (fun u => u.asset = t.asset ∧ u.enabled))
  ordered : t.candidates.Pairwise (fun u v => ¬ Before (remembered t.history) t.now v u)
  left : t.candidates = t.failed ++ rest
  failed : ∀ u ∈ t.failed, FailedDuring s t u

def Outcome.Sound (s : Runtime) (o : Outcome) : Prop :=
  match o.connected with
  | none => o.attempt.Sound s []
  | some u => ∃ rest, o.attempt.Sound s (u :: rest) ∧ SucceededDuring s o.attempt u

structure Kept (s : Runtime) : Prop where
  remembers : s.unhealthyUntil = remembered s.history
  outcomes : ∀ o ∈ s.outcomes, o.Sound s

def Stands (s : Runtime) : Point → Prop
  | .begin _ => True
  | .findMany _ now => now ≤ s.clock
  | .resolveGatewayProxy t u rest => t.Sound s (u :: rest)
  | .connectUpstream t u rest => t.Sound s (u :: rest)
  | .markHealthy t u rest _ => t.Sound s (u :: rest) ∧ SucceededDuring s t u
  | .resolveByDedupe t u rest => t.Sound s (u :: rest) ∧ SucceededDuring s t u
  | .failure t u rest _ => t.Sound s (u :: rest)
  | .markUnhealthy t u rest _ _ => t.Sound s (u :: rest) ∧ FailedDuring s t u
  | .raise t u rest => t.Sound s (u :: rest) ∧ FailedDuring s t u
  | .lose _ _ => True
  | .markLost _ _ _ => True

structure Later (s s' : Runtime) : Prop where
  clock : s.clock ≤ s'.clock
  history : s.history <+: s'.history

section Steps

variable {s s' : Runtime} {t : Attempt} {u : MonitoredUpstream} {rest : List MonitoredUpstream}
  {p : Point} {a : Reply} {o : Option Point}

theorem FailedDuring.later (hs : Later s s') (h : FailedDuring s t u) : FailedDuring s' t u := by
  obtain ⟨failedAt, ht, hm⟩ := h
  exact ⟨failedAt, ht, hs.history.subset hm⟩

theorem SucceededDuring.later (hs : Later s s') (h : SucceededDuring s t u) :
    SucceededDuring s' t u := by
  obtain ⟨succeededAt, ht, hm⟩ := h
  exact ⟨succeededAt, ht, hs.history.subset hm⟩

theorem Attempt.Sound.later (hs : Later s s') (h : t.Sound s rest) : t.Sound s' rest where
  began := h.began.trans hs.clock
  history := h.history.trans hs.history
  all := h.all
  ordered := h.ordered
  left := h.left
  failed v hv := (h.failed v hv).later hs

theorem Outcome.Sound.later {o : Outcome} (hs : Later s s') (h : o.Sound s) : o.Sound s' := by
  unfold Outcome.Sound at h ⊢
  split
  · rename_i hc
    rw [hc] at h
    exact Attempt.Sound.later hs h
  · rename_i u hc
    rw [hc] at h
    obtain ⟨rest, hsound, hsucceeded⟩ := h
    exact ⟨rest, hsound.later hs, hsucceeded.later hs⟩

theorem Stands.later (hs : Later s s') (h : Stands s p) : Stands s' p := by
  cases p with
  | begin => trivial
  | findMany => exact le_trans h hs.clock
  | resolveGatewayProxy | connectUpstream | failure => exact Attempt.Sound.later hs h
  | markHealthy | resolveByDedupe => exact ⟨h.1.later hs, h.2.later hs⟩
  | markUnhealthy | raise => exact ⟨h.1.later hs, h.2.later hs⟩
  | lose | markLost => trivial

theorem Attempt.Sound.miss (h : t.Sound s (u :: rest)) (hf : FailedDuring s t u) :
    (t.miss u).Sound s rest where
  began := h.began
  history := h.history
  all := h.all
  ordered := h.ordered
  left := by simp [Attempt.miss, h.left]
  failed v hv := by
    obtain hv | hv := List.mem_append.mp hv
    · exact h.failed v hv
    · rw [List.mem_singleton.mp hv]
      exact hf

theorem Kept.later (h : Kept s) (hs : Later s s') (hu : s'.unhealthyUntil = s.unhealthyUntil)
    (hh : s'.history = s.history) (ho : ∀ o ∈ s'.outcomes, o ∈ s.outcomes ∨ o.Sound s') : Kept s' where
  remembers := by rw [hu, hh, h.remembers]
  outcomes o hm := by
    obtain hold | hnew := ho o hm
    · exact (h.outcomes o hold).later hs
    · exact hnew

theorem proceed_kept {s₁ : Runtime} (h : Kept s) (ht : t.Sound s rest) (hc : s.clock ≤ a.now)
    (hpr : proceed s t rest = (s₁, o)) :
    Kept (s₁.tick a.now) ∧ Later s (s₁.tick a.now) ∧ ∀ p' ∈ o, Stands (s₁.tick a.now) p' := by
  cases rest with
  | nil =>
    cases hpr
    have hl : Later s ((s.finish ⟨t, none⟩).tick a.now) := ⟨hc, List.prefix_rfl⟩
    refine ⟨h.later hl rfl rfl ?_, hl, fun _ hp => by cases hp⟩
    intro o ho
    obtain ho | ho := List.mem_append.mp ho
    · exact .inl ho
    · rw [List.mem_singleton.mp ho]
      exact .inr (ht.later hl)
  | cons u rest =>
    cases hpr
    have hl : Later s (s.tick a.now) := ⟨hc, List.prefix_rfl⟩
    refine ⟨h.later hl rfl rfl (fun o ho => .inl ho), hl, ?_⟩
    intro p hp
    cases hp
    exact ht.later hl

theorem remember_kept (h : Kept s) (hc : s.clock ≤ a.now) :
    Kept ((s.remember u a.now).tick a.now) ∧ Later s ((s.remember u a.now).tick a.now) := by
  have hl : Later s ((s.remember u a.now).tick a.now) := ⟨hc, List.prefix_append _ _⟩
  refine ⟨⟨?_, fun o ho => (h.outcomes o ho).later hl⟩, hl⟩
  change Function.update s.unhealthyUntil u.id (some (a.now + u.failbackCooldownSeconds * 1000)) =
    remembered (s.history ++ [.failure u.id a.now u.failbackCooldownSeconds])
  rw [remembered_append, h.remembers]
  rfl

theorem effect_kept (h : Kept s) (hp : Stands s p) (hc : s.clock ≤ a.now)
    (he : gateway.effect s p a = .ok (s', o)) : Kept s' ∧ Later s s' ∧ ∀ p' ∈ o, Stands s' p' := by
  obtain ⟨⟨s₁, o₁⟩, hpf, hk⟩ := map_eq_ok.mp he
  cases hk
  have htick : Later s (s.tick a.now) := ⟨hc, List.prefix_rfl⟩
  cases p with
  | begin asset =>
    cases hpf
    refine ⟨h.later htick rfl rfl (fun o ho => .inl ho), htick, ?_⟩
    intro p' hp'
    cases hp'
    exact le_refl a.now
  | findMany asset now =>
    have hsound : Attempt.Sound s ⟨asset, now, s.upstreams.rows, s.history,
        candidates s.unhealthyUntil now (findMany a.order s.upstreams.rows asset), []⟩
        (candidates s.unhealthyUntil now (findMany a.order s.upstreams.rows asset)) := by
      refine ⟨hp, List.prefix_rfl, candidates_perm _ _ _, ?_, rfl, fun _ hv => by cases hv⟩
      rw [← h.remembers]
      exact candidates_ordered _ _ _
    exact proceed_kept h hsound hc (Except.ok.inj hpf)
  | resolveGatewayProxy t u rest =>
    cases hpf
    refine ⟨h.later htick rfl rfl (fun o ho => .inl ho), htick, ?_⟩
    intro p' hp'
    cases hp'
    exact Attempt.Sound.later htick hp
  | connectUpstream t u rest =>
    cases hpf
    have hl : Later s ((s.forget u.id a.now).tick a.now) := ⟨hc, List.prefix_append _ _⟩
    refine ⟨⟨?_, fun o ho => (h.outcomes o ho).later hl⟩, hl, ?_⟩
    · change Function.update s.unhealthyUntil u.id none = remembered (s.history ++ [.success u.id a.now])
      rw [remembered_append, h.remembers]
      rfl
    · intro p' hp'
      cases hp'
      exact ⟨Attempt.Sound.later hl hp, a.now, hp.began.trans hc, by simp [Runtime.tick, Runtime.forget]⟩
  | markHealthy t u rest lastHealthAt =>
    simp only [perform, bind_eq_ok, orThrow_eq_ok, pure_eq_ok] at hpf
    obtain ⟨_, _, hpf⟩ := hpf
    cases hpf
    have hl : Later s ((s.mark u.id lastHealthAt true "Gateway connection successful").tick a.now) :=
      ⟨hc, List.prefix_rfl⟩
    refine ⟨h.later hl rfl rfl (fun o ho => .inl ho), hl, ?_⟩
    intro p' hp'
    cases hp'
    exact ⟨hp.1.later hl, hp.2.later hl⟩
  | resolveByDedupe t u rest =>
    cases hpf
    have hl : Later s ((s.finish ⟨t, some u⟩).tick a.now) := ⟨hc, List.prefix_rfl⟩
    refine ⟨h.later hl rfl rfl ?_, hl, fun _ hp' => by cases hp'⟩
    intro o ho
    obtain ho | ho := List.mem_append.mp ho
    · exact .inl ho
    · rw [List.mem_singleton.mp ho]
      exact .inr ⟨rest, hp.1.later hl, hp.2.later hl⟩
  | failure t u rest error =>
    cases hpf
    obtain ⟨hkept, hl⟩ := remember_kept (u := u) h hc
    refine ⟨hkept, hl, ?_⟩
    intro p' hp'
    cases hp'
    exact ⟨Attempt.Sound.later hl hp, a.now, hp.began.trans hc, by simp [Runtime.tick, Runtime.remember]⟩
  | markUnhealthy t u rest error lastHealthAt =>
    cases hpf
    have hl : Later s ((s.mark u.id lastHealthAt false (slice 500 error)).tick a.now) :=
      ⟨hc, List.prefix_rfl⟩
    refine ⟨h.later hl rfl rfl (fun o ho => .inl ho), hl, ?_⟩
    intro p' hp'
    cases hp'
    exact ⟨hp.1.later hl, hp.2.later hl⟩
  | raise t u rest =>
    exact proceed_kept h (hp.1.miss hp.2) hc (Except.ok.inj hpf)
  | lose u error =>
    cases hpf
    obtain ⟨hkept, hl⟩ := remember_kept (u := u) h hc
    refine ⟨hkept, hl, ?_⟩
    intro p' hp'
    cases hp'
    trivial
  | markLost u error lastHealthAt =>
    cases hpf
    have hl : Later s ((s.mark u.id lastHealthAt false (slice 500 error)).tick a.now) :=
      ⟨hc, List.prefix_rfl⟩
    exact ⟨h.later hl rfl rfl (fun o ho => .inl ho), hl, fun _ hp' => by cases hp'⟩

theorem recover_stands {p' : Point} {message : String} (h : Stands s p)
    (hr : recover p message = some p') : Stands s p' := by
  cases p with
  | resolveGatewayProxy | connectUpstream => cases hr; exact h
  | markHealthy | resolveByDedupe => cases hr; exact h.1
  | markUnhealthy => cases hr; exact h
  | begin | findMany | failure | raise | lose | markLost => cases hr

end Steps

theorem gateway_outline : Outline gateway shared Ticks (fun _ _ => True) Kept Stands (fun _ => Later) where
  entry s p _ he := by
    cases p with
    | begin | lose => trivial
    | _ => cases he
  effect s p a s' o h hp ht he := by
    obtain ⟨hkept, hlater, hstands⟩ := effect_kept h hp ht he
    refine ⟨hkept, hlater, hstands, ?_⟩
    intro e p' hp'
    exact recover_stands (hp.later hlater) hp'
  handler s p e p' _ hp hp' := recover_stands hp hp'
  background _ _ _ _ hp := hp
  event s t h _ := by
    have hl : Later s (gateway.event s t) := ⟨le_refl _, List.prefix_rfl⟩
    exact ⟨h.later hl rfl rfl (fun o ho => .inl ho), fun p hp => hp.later hl⟩
  stable s s' p p' _ hg _ hp := hp.later hg

/-- The gateway has just started. -/
structure Runtime.Booted (s : Runtime) : Prop where
  unhealthyUntil : ∀ id, s.unhealthyUntil id = none
  history : s.history = []
  outcomes : s.outcomes = []

theorem booted_kept {s : Runtime} (h : s.Booted) : Kept s := by
  refine ⟨?_, ?_⟩
  · ext1 id
    rw [h.unhealthyUntil, h.history]
    rfl
  · intro o ho
    rw [h.outcomes] at ho
    cases ho

theorem Attempt.Sound.failed_of_before {s : Runtime} {t : Attempt} {u v : MonitoredUpstream}
    {rest : List MonitoredUpstream} (h : t.Sound s (u :: rest)) (hv : v ∈ t.candidates)
    (hb : Before (remembered t.history) t.now v u) : v ∈ t.failed := by
  rw [h.left, List.mem_append] at hv
  obtain hv | hv := hv
  · exact hv
  · have hord := h.ordered
    rw [h.left] at hord
    obtain ⟨_, hrest, _⟩ := List.pairwise_append.mp hord
    obtain rfl | hv := List.mem_cons.mp hv
    · exfalso
      simp only [Before, comparison] at hb
      split at hb <;> omega
    · exact absurd hb ((List.pairwise_cons.mp hrest).1 v hv)

/-- However the sessions of the gateway interleave, fail, lose connections and mark upstreams
for each other, an attempt connects to an enabled upstream only after it has itself failed
with every enabled one that came before it, and runs out of candidates only after it has
failed with all of them. What comes before what is decided by the last news of each
upstream: one whose last news is a failure within its cooldown comes last, then priority
decides, then the last health check. -/
theorem connects_to_best {s : Runtime} (hs : s.Booted) {c : Config Runtime Point}
    (h : gateway.Run (Allowed shared Ticks (fun _ _ => True)) (.idle s) c) :
    c.shared.unhealthyUntil = remembered c.shared.history ∧
    ∀ o ∈ c.shared.outcomes, o.attempt.history <+: c.shared.history ∧
      (∀ u ∈ o.connected, u ∈ o.attempt.stored ∧ u.asset = o.attempt.asset ∧ u.enabled = true ∧
        SucceededDuring c.shared o.attempt u) ∧
      ∀ v ∈ o.attempt.stored, v.asset = o.attempt.asset → v.enabled = true →
        (∀ u ∈ o.connected, Before (remembered o.attempt.history) o.attempt.now v u) →
          v ∈ o.attempt.failed ∧ FailedDuring c.shared o.attempt v := by
  have hc := gateway_outline.run (keyed_shared _) (Outline.idle (booted_kept hs)) h
  refine ⟨hc.inv.remembers, ?_⟩
  intro o ho
  have hsound := hc.inv.outcomes o ho
  have hmem : ∀ {rest v}, o.attempt.Sound c.shared rest → (v ∈ o.attempt.candidates ↔
      v ∈ o.attempt.stored ∧ v.asset = o.attempt.asset ∧ v.enabled = true) := by
    intro rest v ht
    rw [ht.all.mem_iff, List.mem_filter, decide_eq_true_eq]
  unfold Outcome.Sound at hsound
  split at hsound
  · rename_i hnone
    rw [hnone]
    refine ⟨hsound.history, by simp, ?_⟩
    intro v hv hasset henabled _
    have hin := (hmem hsound).mpr ⟨hv, hasset, henabled⟩
    rw [hsound.left, List.append_nil] at hin
    exact ⟨hin, hsound.failed v hin⟩
  · rename_i u hsome
    rw [hsome]
    obtain ⟨rest, ht, hsucceeded⟩ := hsound
    refine ⟨ht.history, ?_, ?_⟩
    · intro u' hu'
      cases hu'
      have hin : u ∈ o.attempt.candidates := by rw [ht.left]; simp
      obtain ⟨hstored, hasset, henabled⟩ := (hmem ht).mp hin
      exact ⟨hstored, hasset, henabled, hsucceeded⟩
    · intro v hv hasset henabled hbefore
      have hfailed := ht.failed_of_before ((hmem ht).mpr ⟨hv, hasset, henabled⟩) (hbefore u rfl)
      exact ⟨hfailed, ht.failed v hfailed⟩

section Sample

def sampleUpstream (id : Id) (priority : ℤ) : MonitoredUpstream :=
  ⟨id, .btc, priority, true, 300, none, none, none⟩

def sampleRuntime : Runtime :=
  ⟨fun _ => none, ⟨[sampleUpstream 1 10, sampleUpstream 2 20],
    List.pairwise_pair.mpr (by decide)⟩, 0, [], []⟩

def resolveAt (t : Instant) : Action Point Reply (Table MonitoredUpstream) := .resolve 0 { now := t }

/-- The first upstream is unreachable, is passed over while it cools down, is back when the
cooldown is over, and is passed over again after a connection to it has been lost. -/
def failback : List (Action Point Reply (Table MonitoredUpstream)) :=
  .call 0 (.begin .btc) :: [1, 2, 3].map resolveAt ++ .reject 0 "refused" ::
    [4, 5, 6, 7, 8, 9, 10].map resolveAt ++
  .call 0 (.begin .btc) :: [300003, 300003, 300003, 300003, 300003, 300003].map resolveAt ++
  .call 0 (.begin .btc) :: [300004, 300005, 300006, 300007, 300008, 300009].map resolveAt ++
  .call 0 (.lose (sampleUpstream 1 10) "Upstream disconnected") :: [300010, 300011].map resolveAt ++
  .call 0 (.begin .btc) :: [300012, 300013, 300014, 300015, 300016, 300017].map resolveAt

def connections (c : Config Runtime Point) : List (Option Id) :=
  c.shared.outcomes.map (fun o => o.connected.map MonitoredUpstream.id)

theorem connects_to_best_sample : ∃ c,
    gateway.Run (Allowed shared Ticks (fun _ _ => True)) (.idle sampleRuntime) c ∧
    connections c = [some 2, some 2, some 1, some 2] ∧
    ∀ o ∈ c.shared.outcomes, o.attempt.history <+: c.shared.history := by
  have h : (gateway.execChecked (testing (fun s _ a => s.clock ≤ a.now)) (.idle sampleRuntime)
      failback).map connections = some [some 2, some 2, some 1, some 2] := by decide +kernel
  obtain ⟨c, hc, hv⟩ := Option.map_eq_some_iff.mp h
  have hrun := Machine.execChecked_run (testing_allowed (P := Ticks)
    (fun _ _ _ ht => by simpa [Ticks] using ht)) hc
  exact ⟨c, hrun, hv, fun o ho => ((connects_to_best ⟨fun _ => rfl, rfl, rfl⟩ hrun).2 o ho).1⟩

end Sample

end Bitmine.UpstreamRuntime
