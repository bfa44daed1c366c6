import Bitmine.SessionHistory

namespace Bitmine.Release

open Bitmine.Lib.UniqueTable Bitmine.Lib.Throwing Bitmine.Lib.Await Bitmine.Lib.JsonText
open Bitmine.Schema Bitmine.Shares Bitmine.GatewaySession Bitmine.SessionHistory

inductive Item where
  | lease (l : Lease)
  | socket (n : ℕ)
  | row (id : Id)

def Got (g : Gateway) : Item → Prop
  | .lease l => l ∈ g.resources.acquired
  | .socket n => n ∈ g.resources.opened
  | .row id => id ∈ g.resources.created

def Released (g : Gateway) : Item → Prop
  | .lease l => l ∉ g.resources.leases
  | .socket n => n ∈ g.resources.destroyed
  | .row id => id ∈ g.resources.disconnected

/-- `close` has not yet come to the sockets. -/
def early : Option ClosePoint → Bool
  | none => true
  | some (.unknown _ _) => true
  | some (.raise _) => true
  | some (.failure _) => true
  | _ => false

/-- `close` has not yet come to the lease. -/
def beforeLease : Option ClosePoint → Bool
  | some (.closeConnection _ _) => true
  | point => early point

/-- The session has recorded the item, and `close` is still to release it. -/
def Recorded (g : Gateway) : Item → Prop
  | .lease l => (∃ auth, g.session.authorized = some auth ∧ auth.lease = l ∧
      g.session.countedConnection = true ∧ beforeLease g.session.closing = true) ∨
      g.session.closing = some (.zrem l)
  | .socket n => g.session.upstream = some n ∧ early g.session.closing = true
  | .row id => (g.session.connectionId = some id ∧ early g.session.closing = true) ∨
      ∃ code, g.session.closing = some (.closeConnection code id)

def holds : Call → Option Item
  | .downstream (.authenticated _ auth) => some (.lease auth.lease)
  | .downstream (.connected _ _ _ n) => some (.socket n)
  | .downstream (.connectionCreated _ _ id) => some (.row id)
  | _ => none

def acquires (r : Call) (a : Reply) : Bool :=
  match r with
  | .downstream (.authenticate _) => a.auth.isSome
  | .downstream (.connectUpstream _ _ _) => true
  | .downstream (.createConnection _ _) => true
  | _ => false

/-- A handler may record what it holds: `close` has not passed the place that
releases it, and nothing unreleased stands in its field. -/
def timely (g : Gateway) : Call → Bool
  | .downstream (.authenticated _ _) => beforeLease g.session.closing &&
      g.session.authorized.all (fun auth => auth.lease ∉ g.resources.leases)
  | .downstream (.connected _ _ _ _) => early g.session.closing &&
      g.session.upstream.all (fun n => n ∈ g.resources.destroyed)
  | .downstream (.connectionCreated _ _ _) => early g.session.closing &&
      g.session.connectionId.all (fun id => id ∈ g.resources.disconnected)
  | _ => true

/-- The commands by which `close` releases a row and a lease take effect. -/
def effective (g : Gateway) (took : Bool) : Bool :=
  match g.session.closing with
  | some (.closeConnection _ _) => took
  | some (.zrem _) => took
  | _ => true

/-- No step loses sight of an item: what is recorded is recorded in time, no
handler fails between getting an item and recording it, and `close` is not
hindered in releasing. -/
def Careful (c : Config Gateway Call) : Action Call Reply Event → Prop
  | .event (.closeStep took _) => effective c.shared took = true
  | .resolve pid _ => ∀ r, c.calls pid = some r → timely c.shared r = true
  | .reject pid _ => ∀ r, c.calls pid = some r → holds r = none
  | .rejectAfter pid a _ => ∀ r, c.calls pid = some r → holds r = none ∧ acquires r a = false
  | .stop pid => ∀ r, c.calls pid = some r → holds r = none
  | _ => True

def InFlight (c : Config Gateway Call) (x : Item) : Prop :=
  ∃ pid r, c.calls pid = some r ∧ holds r = some x

/-- Every item is released, or will be by `close`, or is held by a handler. -/
def Accounted (c : Config Gateway Call) : Prop :=
  ∀ x, Got c.shared x → Released c.shared x ∨ Recorded c.shared x ∨ InFlight c x

section Accounting

variable {c d : Config Gateway Call} {g s : Gateway} {pid : ℕ} {r : Call} {o : Option Call}

theorem Accounted.step (h : Accounted c)
    (hgot : ∀ x, Got d.shared x → Got c.shared x ∨ InFlight d x)
    (hreleased : ∀ x, Got c.shared x → Released c.shared x → Released d.shared x ∨ InFlight d x)
    (hrecorded : ∀ x, Recorded c.shared x → Released d.shared x ∨ Recorded d.shared x)
    (hflight : ∀ x, InFlight c x → Recorded d.shared x ∨ InFlight d x) : Accounted d := by
  intro x hx
  obtain hx | hx := hgot x hx
  · obtain hr | hr | hf := h x hx
    · exact (hreleased x hx hr).imp_right .inr
    · exact (hrecorded x hr).imp_right .inl
    · exact .inr (hflight x hf)
  · exact .inr (.inr hx)

theorem InFlight.put {x : Item} (h : InFlight c x) (hc : c.calls pid = some r) (s : Gateway)
    (o : Option Call) : holds r = some x ∨ InFlight (c.put s pid o) x := by
  obtain ⟨q, r', hq, hx⟩ := h
  by_cases hqp : q = pid
  · subst q
    rw [hc] at hq
    cases hq
    exact .inl hx
  · exact .inr ⟨q, r', by simpa only [Config.put, Function.update_of_ne hqp] using hq, hx⟩

/-- The shared state changes in nothing that items depend on, but `close` may
have begun. -/
structure Steady (g s : Gateway) : Prop where
  resources : s.resources = g.resources
  authorized : s.session.authorized = g.session.authorized
  countedConnection : s.session.countedConnection = g.session.countedConnection
  upstream : s.session.upstream = g.session.upstream
  connectionId : s.session.connectionId = g.session.connectionId
  closing : s.session.closing = g.session.closing ∨
    g.session.closing = none ∧ early s.session.closing = true

theorem Steady.refl (g : Gateway) : Steady g g := ⟨rfl, rfl, rfl, rfl, rfl, .inl rfl⟩

theorem beforeLease_of_early {point : Option ClosePoint} (h : early point = true) :
    beforeLease point = true := by
  unfold beforeLease
  split
  · rfl
  · exact h

theorem Steady.trans {t : Gateway} (h : Steady g s) (h' : Steady s t) : Steady g t where
  resources := h'.resources.trans h.resources
  authorized := h'.authorized.trans h.authorized
  countedConnection := h'.countedConnection.trans h.countedConnection
  upstream := h'.upstream.trans h.upstream
  connectionId := h'.connectionId.trans h.connectionId
  closing := by
    obtain h₁ | ⟨h₁, he⟩ := h.closing <;> obtain h₂ | ⟨h₂, he'⟩ := h'.closing
    · exact .inl (h₂.trans h₁)
    · exact .inr ⟨h₁ ▸ h₂, he'⟩
    · exact .inr ⟨h₁, h₂ ▸ he⟩
    · exact .inr ⟨h₁, he'⟩

theorem Steady.got (h : Steady g s) {x : Item} (hx : Got s x) : Got g x := by
  cases x <;> simpa only [Got, h.resources] using hx

theorem Steady.released (h : Steady g s) {x : Item} (hx : Released g x) : Released s x := by
  cases x <;> simpa only [Released, h.resources] using hx

theorem Steady.recorded (h : Steady g s) {x : Item} (hx : Recorded g x) : Recorded s x := by
  obtain hc | ⟨hc, he⟩ := h.closing
  · cases x <;> simpa only [Recorded, h.authorized, h.countedConnection, h.upstream,
      h.connectionId, hc] using hx
  · cases x with
    | lease l =>
      obtain ⟨auth, ha, hl, hcount, _⟩ | hz := hx
      · exact .inl ⟨auth, h.authorized.trans ha, hl, h.countedConnection.trans hcount,
          beforeLease_of_early he⟩
      · rw [hc] at hz
        cases hz
    | socket n => exact ⟨h.upstream.trans hx.1, he⟩
    | row id =>
      obtain ⟨hid, _⟩ | ⟨code, hz⟩ := hx
      · exact .inl ⟨h.connectionId.trans hid, he⟩
      · rw [hc] at hz
        cases hz

theorem Accounted.steady (h : Accounted c) (hs : Steady c.shared s) (hc : c.calls pid = some r)
    (hr : holds r = none) (o : Option Call) : Accounted (c.put s pid o) := by
  refine h.step (fun x hx => .inl (hs.got hx)) (fun x _ hx => .inl (hs.released hx))
    (fun x hx => .inr (hs.recorded hx)) (fun x hx => ?_)
  refine .inr ((hx.put hc s o).resolve_left (fun hx => ?_))
  rw [hr] at hx
  cases hx

theorem Accounted.acquire (h : Accounted c) {x₀ : Item} {r' : Call} (hc : c.calls pid = some r)
    (hr : holds r = none) (hr' : holds r' = some x₀)
    (hgot : ∀ x, Got s x → Got c.shared x ∨ x = x₀)
    (hreleased : ∀ x, Released c.shared x → Released s x ∨ x = x₀)
    (hsession : s.session = c.shared.session) : Accounted (c.put s pid (some r')) := by
  have hnew : ∀ x, x = x₀ → InFlight (c.put s pid (some r')) x := by
    rintro x rfl
    exact ⟨pid, r', by simp [Config.put], hr'⟩
  refine h.step (fun x hx => (hgot x hx).imp_right (hnew x))
    (fun x _ hx => (hreleased x hx).imp_right (hnew x)) (fun x hx => .inr ?_) (fun x hx => ?_)
  · show Recorded s x
    cases x <;> simpa only [Recorded, hsession] using hx
  · refine .inr ((hx.put hc s (some r')).resolve_left (fun hx => ?_))
    rw [hr] at hx
    cases hx

theorem Accounted.record (h : Accounted c) {x₀ : Item} (hc : c.calls pid = some r)
    (hr : holds r = some x₀) (hres : s.resources = c.shared.resources)
    (hrecorded : ∀ x, Recorded c.shared x → Released c.shared x ∨ Recorded s x)
    (hx₀ : Recorded s x₀) (o : Option Call) : Accounted (c.put s pid o) := by
  refine h.step (fun x hx => .inl ?_) (fun x _ hx => .inl ?_) (fun x hx => ?_) (fun x hx => ?_)
  · cases x <;> simpa only [Got, Config.put, hres] using hx
  · cases x <;> simpa only [Released, Config.put, hres] using hx
  · refine (hrecorded x hx).imp_left (fun hx => ?_)
    cases x <;> simpa only [Released, Config.put, hres] using hx
  · obtain hx | hx := hx.put hc s o
    · rw [hr] at hx
      cases hx
      exact .inl hx₀
    · exact .inr hx

end Accounting

section Effects

variable {decimal : Decimal} {kind : AssetCode} {g : Gateway} {a : Reply}

theorem steady_send (m : Message) (origin : Option PendingRpc) : Steady g (g.send m origin) := by
  rw [Gateway.send]
  split
  · exact Steady.refl g
  · exact ⟨rfl, rfl, rfl, rfl, rfl, .inl rfl⟩

theorem steady_close (code : String) : Steady g (g.close code) := by
  rw [Gateway.close]
  split
  · exact Steady.refl g
  · rename_i hc
    refine ⟨rfl, rfl, rfl, rfl, rfl, .inr ⟨?_, rfl⟩⟩
    simpa using hc

theorem settle_steady {g₁ : Gateway} {e : Except String (Gateway × Option DownPoint)}
    (hg : Steady g g₁) (he : ∀ x, e = .ok x → Steady g₁ x.1) : Steady g (settle g₁ e).1 := by
  cases e with
  | error e => exact hg
  | ok x => exact hg.trans (he x rfl)

variable {x : Gateway × Option DownPoint}

theorem forward_steady {m : Message} {method : String} {share : Option ShareReference}
    (hx : forward kind g m method share = .ok x) : Steady g x.1 := by
  rw [forward] at hx
  split at hx
  · cases hx
  · cases hx
    exact ⟨rfl, rfl, rfl, rfl, rfl, .inl rfl⟩

theorem continueAfter_steady {after : After} (hx : continueAfter kind g a after = .ok x) :
    Steady g x.1 := by
  cases after with
  | forward m method share => exact forward_steady hx
  | authorize m auth =>
    simp only [continueAfter] at hx
    split at hx
    · cases hx
    · split at hx
      · cases hx
      · cases hx
        exact ⟨rfl, rfl, rfl, rfl, rfl, .inl rfl⟩

theorem ensureUpstream_steady {after : After} (hx : ensureUpstream kind g a after = .ok x) :
    Steady g x.1 := by
  rw [ensureUpstream] at hx
  split at hx
  · exact continueAfter_steady hx
  · cases hx
    exact Steady.refl g

theorem dispatch_steady {m : Message} {method : String} {share : Option ShareReference}
    (hx : dispatch kind g a m method share = .ok x) : Steady g x.1 := by
  cases kind with
  | btc => exact ensureUpstream_steady hx
  | xmr => exact forward_steady hx

theorem submit_steady (m : Message) : Steady g (submit kind g m a).1 := by
  unfold submit
  dsimp only
  split
  · exact Steady.refl g
  · exact steady_send _ _

theorem receiveBitcoin_steady {m : Message} (hx : onDownstreamBitcoin g m a = .ok x) :
    Steady g x.1 := by
  rw [onDownstreamBitcoin] at hx
  split at hx
  · cases hx
    exact Steady.refl g
  · split at hx
    · cases hx
      exact Steady.refl g
    · split at hx
      · cases hx
        exact submit_steady m
      · split at hx
        · exact dispatch_steady hx
        · cases hx
          exact steady_send _ _

theorem receiveMonero_steady {m : Message} (hx : onDownstreamMonero g m a = .ok x) :
    Steady g x.1 := by
  rw [onDownstreamMonero] at hx
  split at hx
  · cases hx
    exact Steady.refl g
  · split at hx
    · cases hx
      exact submit_steady m
    · split at hx
      · exact dispatch_steady hx
      · cases hx
        exact steady_send _ _

theorem forwardLogin_steady {m : Message} (hx : forwardLogin kind g a m = .ok x) :
    Steady g x.1 := by
  rw [forwardLogin] at hx
  split at hx
  · cases hx
  · exact dispatch_steady hx

theorem onDownstream_steady {p : DownPoint} (hh : holds (.downstream p) = none)
    (ha : acquires (.downstream p) a = false) (hx : onDownstream decimal kind g p a = .ok x) :
    Steady g x.1 := by
  cases p with
  | authenticated | connected | connectionCreated => cases hh
  | connectUpstream | createConnection => cases ha
  | receive m =>
    cases hx
    refine settle_steady ⟨rfl, rfl, rfl, rfl, rfl, .inl rfl⟩ (fun x hx => ?_)
    cases kind with
    | btc => exact receiveBitcoin_steady hx
    | xmr => exact receiveMonero_steady hx
  | authenticate m =>
    simp only [onDownstream] at hx
    split at hx
    · cases hx
      exact (steady_send _ _).trans (steady_close _)
    · rename_i auth hauth
      simp [acquires, hauth] at ha
  | candidates after =>
    simp only [onDownstream] at hx
    split at hx <;> cases hx
    exact Steady.refl g
  | failure after upstream rest error =>
    simp only [onDownstream] at hx
    split at hx <;> cases hx
    exact Steady.refl g
  | resolveGatewayProxy | success | updateWorker =>
    cases hx
    exact Steady.refl g
  | succeeded after =>
    cases hx
    exact settle_steady (Steady.refl g) (fun x hx => continueAfter_steady hx)
  | workerUpdated m =>
    cases hx
    exact settle_steady (Steady.refl g) (fun x hx => forwardLogin_steady hx)
  | activePolicy s =>
    simp only [onDownstream, bind_eq_ok, orThrow_eq_ok, pure_eq_ok] at hx
    obtain ⟨_, _, _, _, rfl⟩ := hx
    exact Steady.refl g
  | createShare s q policy =>
    simp only [onDownstream, bind_eq_ok, orThrow_eq_ok, pure_eq_ok] at hx
    obtain ⟨_, _, rfl⟩ := hx
    exact ⟨rfl, rfl, rfl, rfl, rfl, .inl rfl⟩
  | shareCreated s share =>
    cases hx
    exact settle_steady (Steady.refl g) (fun x hx => dispatch_steady hx)
  | protocolError error =>
    cases hx
    exact steady_close _

theorem answered_steady (m : Message) (p : PendingRpc) : Steady g (answered kind g m p) := by
  obtain he | he := answered_cases kind g m p
  · rw [he]
    exact steady_send _ _
  · rw [he]
    exact (steady_send _ _).trans (steady_close _)

theorem onResponse_steady (m : Message) : Steady g (onResponse kind g m).1 := by
  rw [onResponse]
  split
  · exact Steady.refl g
  · split
    · exact Steady.refl g
    · rename_i key p _
      have hs : Steady g (g.set { g.session with
          pending := g.session.pending.filter (fun e => e.1 ≠ key) }) :=
        ⟨rfl, rfl, rfl, rfl, rfl, .inl rfl⟩
      dsimp only
      split
      · exact hs
      · exact hs.trans (answered_steady m p)

theorem onUpstream_steady {socket : ℕ} {p : UpPoint} {x : Gateway × Option UpPoint}
    (hx : onUpstream kind socket g p a = .ok x) : Steady g x.1 := by
  cases p with
  | receive m =>
    have hs : Steady g ((g.set { g.session with
        difficulty := (announces kind m).getD g.session.difficulty }).tell (.heard socket m)) :=
      ⟨rfl, rfl, rfl, rfl, rfl, .inl rfl⟩
    simp only [onUpstream] at hx
    split at hx
    · split at hx <;> cases hx
      · exact hs.trans (steady_close _)
      · exact hs.trans (steady_send _ _)
    · cases hx
      exact hs.trans (onResponse_steady m)
  | resolve m p share =>
    simp only [onUpstream, bind_eq_ok, pure_eq_ok] at hx
    obtain ⟨_, _, rfl⟩ := hx
    exact ⟨rfl, rfl, rfl, rfl, rfl, .inl rfl⟩
  | resolved m p =>
    cases hx
    exact answered_steady m p
  | protocolError error =>
    cases hx
    exact steady_close _

theorem effect_steady {s : Gateway} {r : Call} {o : Option Call} (hh : holds r = none)
    (ha : acquires r a = false) (he : effect decimal kind g r a = .ok (s, o)) : Steady g s := by
  cases r with
  | downstream p =>
    obtain ⟨x, hx, he⟩ := map_eq_ok.mp he
    cases he
    exact onDownstream_steady hh ha hx
  | upstream socket p =>
    obtain ⟨x, hx, he⟩ := map_eq_ok.mp he
    cases he
    exact onUpstream_steady hx

theorem effect_holding {r : Call} {e : String} (he : effect decimal kind g r a = .error e) :
    holds r = none := by
  cases r with
  | upstream socket p => rfl
  | downstream p => cases p <;> first | rfl | cases he

end Effects

section Handlers

variable {decimal : Decimal} {kind : AssetCode} {c : Config Gateway Call} {s : Gateway} {pid : ℕ}
  {a : Reply} {o : Option Call}

theorem authenticate_accounted (h : Accounted c) {m : Message}
    (hc : c.calls pid = some (.downstream (.authenticate m)))
    (he : effect decimal kind c.shared (.downstream (.authenticate m)) a = .ok (s, o)) :
    Accounted (c.put s pid o) := by
  cases hauth : a.auth with
  | none => exact h.steady (effect_steady rfl (by simp [acquires, hauth]) he) hc rfl o
  | some auth =>
    simp only [effect, onDownstream, hauth] at he
    cases he
    refine h.acquire hc rfl rfl (fun x hx => ?_) (fun x hx => ?_) rfl
    · cases x with
      | lease l =>
        refine (List.mem_append.mp hx).imp_right (fun hl => ?_)
        rw [List.mem_singleton.mp hl]
      | socket | row => exact .inl hx
    · cases x with
      | lease l =>
        by_cases hl : l = auth.lease
        · exact .inr (by rw [hl])
        · refine .inl (fun hm => ?_)
          obtain hm | hm := List.mem_append.mp hm
          · exact hx hm
          · exact hl (List.mem_singleton.mp hm)
      | socket | row => exact .inl hx

theorem authenticated_accounted (h : Accounted c) {m : Message} {auth : Authorized}
    (hc : c.calls pid = some (.downstream (.authenticated m auth)))
    (ht : timely c.shared (.downstream (.authenticated m auth)) = true)
    (he : effect decimal kind c.shared (.downstream (.authenticated m auth)) a = .ok (s, o)) :
    Accounted (c.put s pid o) := by
  cases he
  simp only [timely, Bool.and_eq_true] at ht
  let g := c.shared.set { c.shared.session with
    authorized := some auth, countedConnection := true
    heartbeats := c.shared.session.heartbeats + 1 }
  have hs : Steady g (settle g (ensureUpstream kind g a (.authorize m auth))).1 :=
    settle_steady (Steady.refl g) (fun x hx => ensureUpstream_steady hx)
  refine h.record hc rfl hs.resources (fun x hx => ?_) (hs.recorded ?_) _
  · cases x with
    | lease l =>
      -- the lease that was recorded before has been released
      obtain ⟨old, hold, rfl, _⟩ | hz := hx
      · left
        have hall := ht.2
        rw [hold] at hall
        simpa [Released] using hall
      · rw [hz] at ht
        cases ht.1
    | socket | row => exact .inr (hs.recorded hx)
  · exact .inl ⟨auth, rfl, rfl, rfl, ht.1⟩

theorem connectUpstream_accounted (h : Accounted c) {after : After} {upstream : Candidate}
    {rest : List Candidate} (hc : c.calls pid = some (.downstream (.connectUpstream after upstream rest)))
    (he : effect decimal kind c.shared (.downstream (.connectUpstream after upstream rest)) a =
      .ok (s, o)) : Accounted (c.put s pid o) := by
  cases he
  refine h.acquire hc rfl rfl (fun x hx => ?_) (fun x hx => .inl ?_) rfl
  · cases x with
    | socket n =>
      refine (List.mem_append.mp hx).imp_right (fun hn => ?_)
      rw [List.mem_singleton.mp hn]
    | lease | row => exact .inl hx
  · cases x <;> exact hx

theorem connected_accounted (h : Accounted c) {after : After} {upstream : Candidate}
    {rest : List Candidate} {n : ℕ}
    (hc : c.calls pid = some (.downstream (.connected after upstream rest n)))
    (ht : timely c.shared (.downstream (.connected after upstream rest n)) = true)
    (he : effect decimal kind c.shared (.downstream (.connected after upstream rest n)) a =
      .ok (s, o)) : Accounted (c.put s pid o) := by
  cases he
  simp only [timely, Bool.and_eq_true] at ht
  refine h.record hc rfl ?_ (fun x hx => ?_) ?_ _
  · rfl
  · cases x with
    | socket old =>
      left
      have hall := ht.2
      rw [hx.1] at hall
      simpa [Released] using hall
    | lease | row => exact .inr hx
  · exact ⟨rfl, ht.1⟩

theorem createConnection_accounted (h : Accounted c) {m : Message} {auth : Authorized}
    (hc : c.calls pid = some (.downstream (.createConnection m auth)))
    (he : effect decimal kind c.shared (.downstream (.createConnection m auth)) a = .ok (s, o)) :
    Accounted (c.put s pid o) := by
  obtain ⟨x, hx, he⟩ := map_eq_ok.mp he
  simp only [onDownstream, bind_eq_ok, orThrow_eq_ok, pure_eq_ok] at hx
  obtain ⟨connections, _, rfl⟩ := hx
  cases he
  refine h.acquire hc rfl rfl (fun x hx => ?_) (fun x hx => .inl ?_) rfl
  · cases x with
    | row id =>
      refine (List.mem_append.mp hx).imp_right (fun hid => ?_)
      rw [List.mem_singleton.mp hid]
    | lease | socket => exact .inl hx
  · cases x <;> exact hx

theorem connectionCreated_accounted (h : Accounted c) {m : Message} {auth : Authorized} {id : Id}
    (hc : c.calls pid = some (.downstream (.connectionCreated m auth id)))
    (ht : timely c.shared (.downstream (.connectionCreated m auth id)) = true)
    (he : effect decimal kind c.shared (.downstream (.connectionCreated m auth id)) a =
      .ok (s, o)) : Accounted (c.put s pid o) := by
  cases he
  simp only [timely, Bool.and_eq_true] at ht
  refine h.record hc rfl ?_ (fun x hx => ?_) ?_ _
  · rfl
  · cases x with
    | row old =>
      obtain ⟨hold, _⟩ | ⟨code, hz⟩ := hx
      · left
        have hall := ht.2
        rw [hold] at hall
        simpa [Released] using hall
      · rw [hz] at ht
        cases ht.1
    | lease | socket => exact .inr hx
  · exact .inl ⟨rfl, ht.1⟩

theorem resolve_accounted (h : Accounted c) {r : Call} (hc : c.calls pid = some r)
    (ht : timely c.shared r = true) (he : effect decimal kind c.shared r a = .ok (s, o)) :
    Accounted (c.put s pid o) := by
  cases r with
  | upstream socket p => exact h.steady (effect_steady rfl rfl he) hc rfl o
  | downstream p =>
    cases p with
    | authenticate m => exact authenticate_accounted h hc he
    | authenticated m auth => exact authenticated_accounted h hc ht he
    | connectUpstream after upstream rest => exact connectUpstream_accounted h hc he
    | connected after upstream rest n => exact connected_accounted h hc ht he
    | createConnection m auth => exact createConnection_accounted h hc he
    | connectionCreated m auth id => exact connectionCreated_accounted h hc ht he
    | _ => exact h.steady (effect_steady rfl rfl he) hc rfl o

end Handlers

section Closing

variable {g : Gateway}

theorem recorded_closeLease {l : Lease} {auth : Authorized}
    (hauth : g.session.authorized = some auth) (hl : auth.lease = l)
    (hcount : g.session.countedConnection = true) : Recorded (closeLease g) (.lease l) := by
  right
  simp only [closeLease, hauth, hcount, hl, ↓reduceIte]
  rfl

@[simp] theorem closeLease_resources : (closeLease g).resources = g.resources := by
  rw [closeLease]
  split
  · split <;> rfl
  · rfl

/-- Destroying the sockets releases the upstream and passes on the rest. -/
theorem closeSockets_releases (code : String) (he : early g.session.closing = true) {x : Item}
    (hx : Recorded g x) : Released (closeSockets g code) x ∨ Recorded (closeSockets g code) x := by
  rw [closeSockets]
  dsimp only
  cases x with
  | socket n =>
    left
    have hn : n ∈ g.resources.destroyed ++ g.session.upstream.toList := by simp [hx.1]
    split
    · exact hn
    · show n ∈ (closeLease _).resources.destroyed
      rw [closeLease_resources]
      exact hn
  | row id =>
    obtain ⟨hid, _⟩ | ⟨code', hz⟩ := hx
    · split
      · rename_i id' hid'
        obtain rfl := Option.some.inj (hid.symm.trans hid')
        exact .inr (.inr ⟨code, rfl⟩)
      · rename_i hnone
        cases hid.symm.trans hnone
    · rw [hz] at he
      cases he
  | lease l =>
    obtain ⟨auth, hauth, hl, hcount, _⟩ | hz := hx
    · right
      split
      · exact .inl ⟨auth, hauth, hl, hcount, rfl⟩
      · exact recorded_closeLease hauth hl hcount
    · rw [hz] at he
      cases he

/-- What an event beside the handlers may do: it gets nothing and gives nothing
up unreleased. -/
structure Frees (g s : Gateway) : Prop where
  got : ∀ x, Got s x → Got g x
  released : ∀ x, Got g x → Released g x → Released s x
  recorded : ∀ x, Recorded g x → Released s x ∨ Recorded s x

theorem Accounted.frees {c : Config Gateway Call} (h : Accounted c) (hf : Frees c.shared g) :
    Accounted ⟨g, c.calls⟩ :=
  h.step (fun x hx => .inl (hf.got x hx)) (fun x hg hx => .inl (hf.released x hg hx)) hf.recorded
    (fun _ hx => .inr hx)

theorem Steady.frees {s : Gateway} (h : Steady g s) : Frees g s :=
  ⟨fun _ hx => h.got hx, fun _ _ hx => h.released hx, fun _ hx => .inr (h.recorded hx)⟩

theorem Frees.of_steady {s t : Gateway} (h : Steady g s) (h' : Frees s t) (hg : ∀ x, Got g x → Got s x) :
    Frees g t :=
  ⟨fun x hx => h.got (h'.got x hx), fun x hx hr => h'.released x (hg x hx) (h.released hr),
    fun x hx => h'.recorded x (h.recorded hx)⟩

@[simp] theorem closeSockets_resources (code : String) : (closeSockets g code).resources =
    { g.resources with destroyed := g.resources.destroyed ++ g.session.upstream.toList } := by
  rw [closeSockets]
  dsimp only
  split
  · rfl
  · rw [closeLease_resources]
    rfl

theorem closeSockets_frees (code : String) (he : early g.session.closing = true) :
    Frees g (closeSockets g code) where
  got x hx := by cases x <;> simpa only [Got, closeSockets_resources] using hx
  released x _ hx := by
    cases x with
    | socket n =>
      simp only [Released, closeSockets_resources]
      exact List.mem_append_left _ hx
    | lease | row => simpa only [Released, closeSockets_resources] using hx
  recorded x hx := closeSockets_releases code he hx

/-- The row is marked as disconnected, and the lease is next. -/
theorem closeConnection_frees {code : String} {id : Id}
    (hc : g.session.closing = some (.closeConnection code id)) :
    Frees g (closeLease (g.hold { g.resources with
      disconnected := g.resources.disconnected ++ [id] })) where
  got x hx := by cases x <;> simpa only [Got, closeLease_resources, Gateway.hold] using hx
  released x _ hx := by
    cases x with
    | row id' =>
      simp only [Released, closeLease_resources]
      exact List.mem_append_left _ hx
    | lease | socket => simpa only [Released, closeLease_resources, Gateway.hold] using hx
  recorded x hx := by
    cases x with
    | lease l =>
      obtain ⟨auth, hauth, hl, hcount, _⟩ | hz := hx
      · exact .inr (recorded_closeLease hauth hl hcount)
      · cases hc.symm.trans hz
    | socket n =>
      have he := hx.2
      rw [hc] at he
      cases he
    | row id' =>
      obtain ⟨_, he⟩ | ⟨code', hz⟩ := hx
      · rw [hc] at he
        cases he
      · cases hc.symm.trans hz
        left
        simp only [Released, closeLease_resources]
        exact List.mem_append_right _ (List.mem_singleton_self _)

/-- Leases only go away, and `close` is past everything but the one it removes. -/
theorem late_frees {s : Gateway} (hlate : beforeLease g.session.closing = false)
    (hacquired : s.resources.acquired = g.resources.acquired)
    (hopened : s.resources.opened = g.resources.opened)
    (hcreated : s.resources.created = g.resources.created)
    (hdestroyed : s.resources.destroyed = g.resources.destroyed)
    (hdisconnected : s.resources.disconnected = g.resources.disconnected)
    (hleases : s.resources.leases ⊆ g.resources.leases)
    (hz : ∀ l, g.session.closing = some (.zrem l) → l ∉ s.resources.leases) : Frees g s where
  got x hx := by cases x <;> simpa only [Got, hacquired, hopened, hcreated] using hx
  released x _ hx := by
    cases x with
    | lease l => exact fun hl => hx (hleases hl)
    | socket n => simpa only [Released, hdestroyed] using hx
    | row id => simpa only [Released, hdisconnected] using hx
  recorded x hx := by
    have hearly : early g.session.closing = false :=
      eq_false_of_ne_true (fun he => ne_true_of_eq_false hlate (beforeLease_of_early he))
    cases x with
    | lease l =>
      obtain ⟨_, _, _, _, hb⟩ | hzl := hx
      · exact absurd hb (ne_true_of_eq_false hlate)
      · exact .inl (hz l hzl)
    | socket n => exact absurd hx.2 (ne_true_of_eq_false hearly)
    | row id =>
      obtain ⟨_, he⟩ | ⟨code, hc⟩ := hx
      · exact absurd he (ne_true_of_eq_false hearly)
      · rw [hc] at hlate
        cases hlate

theorem steady_closeAt {point : ClosePoint} (he : early g.session.closing = true)
    (hp : early (some point) = true) {x : Item} (hx : Recorded g x) :
    Recorded (g.closeAt point) x := by
  cases x with
  | lease l =>
    obtain ⟨auth, hauth, hl, hcount, _⟩ | hz := hx
    · exact .inl ⟨auth, hauth, hl, hcount, beforeLease_of_early hp⟩
    · rw [hz] at he
      cases he
  | socket n => exact ⟨hx.1, hp⟩
  | row id =>
    obtain ⟨hid, _⟩ | ⟨code, hz⟩ := hx
    · exact .inl ⟨hid, hp⟩
    · rw [hz] at he
      cases he

theorem closeStep_frees {took : Bool} (now : Instant) (ht : effective g took = true) :
    Frees g (closeStep g took now) := by
  rw [closeStep]
  dsimp only
  split
  · exact (Steady.refl g).frees
  · rename_i code shares hc
    have he : early g.session.closing = true := by rw [hc]; rfl
    have hr : ∀ {s : Gateway}, s.session = g.session → s.resources = g.resources →
        Frees g (s.closeAt (.raise code)) := by
      intro s hs hres
      refine ⟨fun x hx => ?_, fun x _ hx => ?_, fun x hx => .inr ?_⟩
      · cases x <;> simpa only [Got, Gateway.closeAt, Gateway.set, hres] using hx
      · cases x <;> simpa only [Released, Gateway.closeAt, Gateway.set, hres] using hx
      · refine steady_closeAt (hs ▸ he) rfl ?_
        cases x <;> simpa only [Recorded, hs] using hx
    split
    · exact hr rfl rfl
    · exact hr rfl rfl
  · rename_i code hc
    have he : early g.session.closing = true := by rw [hc]; rfl
    have hs : Steady g (g.set { g.session with pending := [] }) :=
      ⟨rfl, rfl, rfl, rfl, rfl, .inl rfl⟩
    split
    · refine ⟨fun x hx => ?_, fun x _ hx => ?_, fun x hx => .inr ?_⟩
      · cases x <;> exact hx
      · cases x <;> exact hx
      · exact steady_closeAt he rfl (hs.recorded hx)
    · exact Frees.of_steady hs (closeSockets_frees code he) (fun x hx => by cases x <;> exact hx)
  · rename_i code hc
    exact closeSockets_frees code (by rw [hc]; rfl)
  · rename_i code id hc
    have htook : took = true := by simpa only [effective, hc] using ht
    simp only [htook, ↓reduceIte]
    exact closeConnection_frees hc
  · rename_i lease hc
    have htook : took = true := by simpa only [effective, hc] using ht
    simp only [htook, ↓reduceIte]
    refine late_frees (by rw [hc]; rfl) rfl rfl rfl rfl rfl (List.filter_subset_self _) ?_
    intro l hl
    cases hc.symm.trans hl
    simp [Gateway.closeAt, Gateway.hold, Gateway.set]
  · rename_i workerId hc
    have hz : ∀ l, g.session.closing = some (.zrem l) → l ∉ g.resources.leases :=
      fun l hl => by cases hc.symm.trans hl
    split <;> exact late_frees (by rw [hc]; rfl) rfl rfl rfl rfl rfl (List.Subset.refl _) hz
  · rename_i workerId hc
    have hz : ∀ ls : List Lease, ∀ l, g.session.closing = some (.zrem l) → l ∉ ls :=
      fun _ l hl => by cases hc.symm.trans hl
    split
    · exact late_frees (by rw [hc]; rfl) rfl rfl rfl rfl rfl (List.filter_subset_self _) (hz _)
    · exact late_frees (by rw [hc]; rfl) rfl rfl rfl rfl rfl (List.Subset.refl _) (hz _)
  · exact (Steady.refl g).frees

/-- Events that change the leases of the worker, or a socket that is closed from
the other side. -/
theorem hold_frees {r : Resources} (ha : r.acquired = g.resources.acquired)
    (ho : r.opened = g.resources.opened) (hc : r.created = g.resources.created)
    (hl : ∀ l ∈ g.resources.acquired, l ∈ r.leases → l ∈ g.resources.leases)
    (hd : g.resources.destroyed ⊆ r.destroyed)
    (hr : r.disconnected = g.resources.disconnected) : Frees g (g.hold r) where
  got x hx := by cases x <;> simpa only [Got, Gateway.hold, ha, ho, hc] using hx
  released x hg hx := by
    cases x with
    | lease l => exact fun hm => hx (hl l hg hm)
    | socket n => exact hd hx
    | row id => simpa only [Released, Gateway.hold, hr] using hx
  recorded x hx := by cases x <;> exact .inr hx

theorem Frees.steady {s t : Gateway} (h : Frees g s) (h' : Steady s t) : Frees g t :=
  ⟨fun x hx => h.got x (h'.got hx), fun x hg hx => h'.released (h.released x hg hx),
    fun x hx => (h.recorded x hx).imp (fun hx => h'.released hx) (fun hx => h'.recorded hx)⟩

theorem event_frees {e : Event} (he : ∀ took now, e = .closeStep took now → effective g took = true) :
    Frees g (event g e) := by
  cases e with
  | close code => exact (steady_close code).frees
  | closeStep took now => exact closeStep_frees now (he took now rfl)
  | downstreamClosed =>
    simp only [event]
    refine Steady.frees (Steady.trans ?_ (steady_close _))
    exact ⟨rfl, rfl, rfl, rfl, rfl, .inl rfl⟩
  | upstreamClosed socket code =>
    simp only [event]
    split
    · refine Frees.steady ?_ (steady_close _)
      exact hold_frees rfl rfl rfl (fun _ _ hl => hl) (List.subset_append_left _ _) rfl
    · exact (Steady.refl g).frees
  | renew =>
    simp only [event]
    split
    · exact (Steady.refl g).frees
    · split
      · exact hold_frees rfl rfl rfl (fun _ _ hl => hl) (List.Subset.refl _) rfl
      · exact (steady_close _).frees
  | leaseExpires lease =>
    exact hold_frees rfl rfl rfl (fun _ _ hl => List.mem_of_mem_filter hl) (List.Subset.refl _) rfl
  | leaseElsewhere lease =>
    simp only [event]
    split
    · exact (Steady.refl g).frees
    · rename_i hnew
      refine hold_frees rfl rfl rfl (fun l hl hm => ?_) (List.Subset.refl _) rfl
      refine (List.mem_append.mp hm).resolve_right (fun hm => hnew ?_)
      rwa [← List.mem_singleton.mp hm]
  | rewriteShares f hf => exact Steady.frees ⟨rfl, rfl, rfl, rfl, rfl, .inl rfl⟩
  | insertShare share =>
    simp only [event]
    split
    · exact Steady.frees ⟨rfl, rfl, rfl, rfl, rfl, .inl rfl⟩
    · exact (Steady.refl g).frees
  | policies t => exact Steady.frees ⟨rfl, rfl, rfl, rfl, rfl, .inl rfl⟩

end Closing

section Runs

variable {decimal : Decimal} {kind : AssetCode}

theorem step_accounted {c d : Config Gateway Call} {act : Action Call Reply Event}
    (h : Accounted c) (hc : Careful c act) (hn : (gateway decimal kind).next c act = some d) :
    Accounted d := by
  obtain ⟨e, rfl, rfl⟩ | ⟨pid, r, rfl, _, hcall, rfl⟩ | ⟨pid, r, a, s, o, rfl, hcall, he, rfl⟩ |
    ⟨pid, r, a, e, s, o, rfl, hcall, he, rfl⟩ | ⟨pid, r, e, hact, hcall, rfl⟩ |
    ⟨pid, r, b, rfl, hcall, rfl⟩ | ⟨pid, r, rfl, hcall, rfl⟩ := Machine.next_inversion hn
  · refine h.frees (event_frees ?_)
    rintro took now rfl
    exact hc
  · refine h.step (fun x hx => .inl hx) (fun x _ hx => .inl hx) (fun x hx => .inr hx) ?_
    rintro x ⟨q, r', hq, hx⟩
    refine .inr ⟨q, r', ?_, hx⟩
    have hne : q ≠ pid := by
      rintro rfl
      cases hcall.symm.trans hq
    simpa only [Config.put, Function.update_of_ne hne] using hq
  · exact resolve_accounted h hcall (hc r hcall) he
  · obtain ⟨hh, ha⟩ := hc r hcall
    exact h.steady (effect_steady hh ha he) hcall hh _
  · refine h.steady (Steady.refl _) hcall ?_ _
    obtain rfl | ⟨a, he⟩ := hact
    · exact hc r hcall
    · exact effect_holding he
  · have hcalls : Function.update c.calls pid (some r) = c.calls := by
      rw [← hcall, Function.update_eq_self]
    simpa only [Config.put, gateway, hcalls] using h
  · exact h.steady (Steady.refl _) hcall (hc r hcall) none

theorem accounted_fresh {g : Gateway} (hg : g.Fresh) : Accounted (.idle g) := by
  intro x hx
  cases x with
  | lease l =>
    rw [Got, Config.idle, hg.acquired] at hx
    cases hx
  | socket n =>
    rw [Got, Config.idle, hg.opened] at hx
    cases hx
  | row id =>
    rw [Got, Config.idle, hg.created] at hx
    cases hx

theorem not_recorded {g : Gateway} (hg : g.session.closing = some .finished) (x : Item) :
    ¬ Recorded g x := by
  intro hx
  cases x with
  | lease l => simp [Recorded, hg, beforeLease, early] at hx
  | socket n => simp [Recorded, hg, early] at hx
  | row id => simp [Recorded, hg, early] at hx

theorem renew_released {g : Gateway} {l : Lease} (hl : l ∉ g.resources.leases) :
    (event g .renew).resources.renewed ≠ g.resources.renewed ++ [l] := by
  intro he
  simp only [event] at he
  split at he
  · simp at he
  · rename_i auth _
    split at he
    · rename_i hm
      simp only [Gateway.hold, List.append_cancel_left_eq, List.cons.injEq, and_true] at he
      exact hl (he ▸ hm)
    · rw [(steady_close _).resources] at he
      simp at he

/-- In every run of careful steps, a session that has closed and has no handler
running has left no lease, no socket and no row behind. -/
theorem nothing_left_behind {g : Gateway} (hg : g.Fresh) {c : Config Gateway Call}
    (h : (gateway decimal kind).Run (fun c act => Steps c act ∧ Careful c act) (.idle g) c)
    (hclosed : c.shared.session.closing = some .finished) (hidle : ∀ pid, c.calls pid = none) :
    (∀ l ∈ c.shared.resources.acquired, l ∉ c.shared.resources.leases ∧
      (event c.shared .renew).resources.renewed ≠ c.shared.resources.renewed ++ [l]) ∧
    (∀ n ∈ c.shared.resources.opened, n ∈ c.shared.resources.destroyed) ∧
    ∀ id ∈ c.shared.resources.created, id ∈ c.shared.resources.disconnected := by
  have hacc : Accounted c :=
    h.invariant (fun _ _ _ hi ha hn => step_accounted hi ha.2 hn) (accounted_fresh hg)
  have hreleased : ∀ x, Got c.shared x → Released c.shared x := by
    intro x hx
    apply (hacc x hx).resolve_right
    rintro (hr | ⟨pid, r, hr, _⟩)
    · exact not_recorded hclosed x hr
    · rw [hidle pid] at hr
      cases hr
  refine ⟨fun l hl => ?_, fun n hn => hreleased (.socket n) hn, fun id hid => hreleased (.row id) hid⟩
  have hgone : l ∉ c.shared.resources.leases := hreleased (.lease l) hl
  exact ⟨hgone, renew_released hgone⟩

end Runs

section Sample

def loginMessage : Message := { id := some (.num "1"), method := some (.str "mining.authorize") }

def started : Config Gateway Call :=
  (Config.idle (sampleGateway .btc)).put (sampleGateway .btc) 0
    (some (.downstream (.receive loginMessage)))

def loginReply : Reply :=
  { auth := some ⟨1, 1, "lease"⟩
    candidates := [⟨1, "x"⟩]
    username := "pool.1"
    newId := fun _ => 7 }

def answers (n : ℕ) : List (Action Call Reply Event) :=
  List.replicate n (.resolve 0 loginReply)

def closeSteps (n : ℕ) : List (Action Call Reply Event) :=
  List.replicate n (.event (.closeStep true 0))

def alone : Action Call Reply Event → Bool
  | .event _ => true
  | .resolve 0 _ => true
  | _ => false

def aloneCarefully (c : Config Gateway Call) : Action Call Reply Event → Bool
  | .event (.closeStep took _) => effective c.shared took
  | .event _ => true
  | .resolve 0 _ => (c.calls 0).all (timely c.shared)
  | _ => false

theorem aloneCarefully_careful {c : Config Gateway Call} {act : Action Call Reply Event}
    (h : aloneCarefully c act = true) : alone act = true ∧ Careful c act := by
  unfold aloneCarefully at h
  split at h
  · exact ⟨rfl, h⟩
  · rename_i e hne
    refine ⟨rfl, ?_⟩
    cases e with
    | closeStep took now => exact absurd rfl (hne took now)
    | _ => trivial
  · refine ⟨rfl, fun r hr => ?_⟩
    rw [hr] at h
    exact h
  · cases h

theorem alone_steps {c : Config Gateway Call} {act : Action Call Reply Event}
    (h : alone act = true) : Steps c act := by
  unfold alone at h
  split at h
  · trivial
  · exact fun _ _ => trivial
  · cases h

theorem alone_calls {c d : Config Gateway Call} {decimal : Decimal}
    (h : (gateway decimal .btc).Run (fun _ act => alone act = true) c d)
    (hc : ∀ q, q ≠ 0 → c.calls q = none) : ∀ q, q ≠ 0 → d.calls q = none := by
  refine h.invariant (I := fun c => ∀ q, q ≠ 0 → c.calls q = none)
    (fun c act d hi ha hn q hq => ?_) hc
  rw [Machine.next_calls_ne hn, hi q hq]
  unfold alone at ha
  split at ha
  · exact fun h => by cases h
  · exact fun h => hq (Option.some.inj h).symm
  · cases ha

theorem started_alone : ∀ q, q ≠ 0 → started.calls q = none := by
  intro q hq
  simp [started, Config.put, Config.idle, hq]

theorem started_run {ok : Config Gateway Call → Action Call Reply Event → Prop}
    (hok : ok (.idle (sampleGateway .btc)) (.call 0 (.downstream (.receive loginMessage)))) :
    (gateway sampleDecimal .btc).Run ok (.idle (sampleGateway .btc)) started :=
  Machine.Run.step (Machine.Run.refl _) hok rfl

/-- Whether `close` has finished and the handler has returned, and what is left
of leases, sockets and rows. -/
structure Remains where
  finished : Bool
  returned : Bool
  acquired : List Lease
  leases : List Lease
  sockets : List ℕ
  rows : List Id
  renewals : List Lease
  deriving DecidableEq

def remains (c : Config Gateway Call) : Remains where
  finished := match c.shared.session.closing with
    | some .finished => true
    | _ => false
  returned := (c.calls 0).isNone
  acquired := c.shared.resources.acquired
  leases := c.shared.resources.leases
  sockets := c.shared.resources.opened.filter (fun n => n ∉ c.shared.resources.destroyed)
  rows := c.shared.resources.created.filter (fun id => id ∉ c.shared.resources.disconnected)
  renewals := (event c.shared .renew).resources.renewed.drop c.shared.resources.renewed.length

theorem finished_of_remains {c : Config Gateway Call} (h : (remains c).finished = true) :
    c.shared.session.closing = some .finished := by
  simp only [remains] at h
  split at h
  · assumption
  · cases h

theorem idle_of_remains {c : Config Gateway Call} (h : (remains c).returned = true)
    (hc : ∀ q, q ≠ 0 → c.calls q = none) (q : ℕ) : c.calls q = none := by
  by_cases hq : q = 0
  · subst q
    exact Option.isNone_iff_eq_none.mp h
  · exact hc q hq

theorem nothing_left_behind_sample : ∃ c, (gateway sampleDecimal .btc).Run
    (fun c act => Steps c act ∧ Careful c act) (.idle (sampleGateway .btc)) c ∧
    c.shared.resources.acquired = [⟨1, "lease"⟩] ∧
    (∀ l ∈ c.shared.resources.acquired, l ∉ c.shared.resources.leases ∧
      (event c.shared .renew).resources.renewed ≠ c.shared.resources.renewed ++ [l]) ∧
    (∀ n ∈ c.shared.resources.opened, n ∈ c.shared.resources.destroyed) ∧
    ∀ id ∈ c.shared.resources.created, id ∈ c.shared.resources.disconnected := by
  have h : ((gateway sampleDecimal .btc).execChecked aloneCarefully started
      (answers 13 ++ .event (.close "idle-timeout") :: closeSteps 6)).map remains =
      some ⟨true, true, [⟨1, "lease"⟩], [], [], [], []⟩ := by decide +kernel
  obtain ⟨c, hc, hv⟩ := Option.map_eq_some_iff.mp h
  have hrun := Machine.execChecked_run (fun _ _ ht => aloneCarefully_careful ht) hc
  have hcalls := alone_calls (hrun.mono (fun _ _ h => h.1)) started_alone
  have hall : (gateway sampleDecimal .btc).Run (fun c act => Steps c act ∧ Careful c act)
      (.idle (sampleGateway .btc)) c :=
    (started_run ⟨fun _ _ h => (by cases h), trivial⟩).trans
      (hrun.mono (fun _ _ h => ⟨alone_steps h.1, h.2⟩))
  refine ⟨c, hall, congrArg Remains.acquired hv, ?_⟩
  exact nothing_left_behind (sampleGateway_fresh .btc) hall
    (finished_of_remains (congrArg Remains.finished hv))
    (idle_of_remains (congrArg Remains.returned hv) hcalls)

/-- The miner disconnects while its login is checked: `close` finishes before
there is anything to release, and the lease, the socket and the row that the
handler then gets are never released. -/
theorem login_outlives_close : ∃ c, (gateway sampleDecimal .btc).Run Steps
    (.idle (sampleGateway .btc)) c ∧ c.shared.session.closing = some .finished ∧
    (∀ pid, c.calls pid = none) ∧
    (∃ l ∈ c.shared.resources.acquired, l ∈ c.shared.resources.leases ∧
      l ∈ (event c.shared .renew).resources.renewed.drop c.shared.resources.renewed.length) ∧
    (∃ n ∈ c.shared.resources.opened, n ∉ c.shared.resources.destroyed) ∧
    ∃ id ∈ c.shared.resources.created, id ∉ c.shared.resources.disconnected := by
  have h : ((gateway sampleDecimal .btc).execChecked (fun _ => alone) started
      (answers 1 ++ .event .downstreamClosed :: closeSteps 2 ++ answers 12)).map remains =
      some ⟨true, true, [⟨1, "lease"⟩], [⟨1, "lease"⟩], [0], [7], [⟨1, "lease"⟩]⟩ := by
    decide +kernel
  obtain ⟨c, hc, hv⟩ := Option.map_eq_some_iff.mp h
  have hrun := Machine.execChecked_run (fun _ _ (ht : alone _ = true) => ht) hc
  have hcalls := alone_calls hrun started_alone
  have hmem : ∀ {l : List Lease}, l = [⟨1, "lease"⟩] → ⟨1, "lease"⟩ ∈ l := by
    rintro l rfl
    exact List.mem_singleton_self _
  have hsocket : 0 ∈ (remains c).sockets := by simp [hv]
  have hrow : 7 ∈ (remains c).rows := by simp [hv]
  refine ⟨c, (started_run (fun _ _ h => by cases h)).trans (hrun.mono (fun _ _ h => alone_steps h)),
    finished_of_remains (congrArg Remains.finished hv),
    idle_of_remains (congrArg Remains.returned hv) hcalls,
    ⟨⟨1, "lease"⟩, hmem (congrArg Remains.acquired hv), hmem (congrArg Remains.leases hv),
      hmem (congrArg Remains.renewals hv)⟩, ⟨0, ?_⟩, ⟨7, ?_⟩⟩
  · simpa using List.mem_filter.mp hsocket
  · simpa using List.mem_filter.mp hrow

end Sample

end Bitmine.Release
