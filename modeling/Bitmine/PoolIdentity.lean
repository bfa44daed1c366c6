import Bitmine.SessionHistory

namespace Bitmine.PoolIdentity

open Bitmine.Lib.Throwing Bitmine.Lib.Await Bitmine.Lib.JsonText
open Bitmine.Schema Bitmine.Shares Bitmine.GatewaySession Bitmine.SessionHistory

section Members

variable {members : List (String × Json)} {key key' : String} {value : Json}

theorem find?_put (h : members.any (fun m => m.1 = key) = true) :
    (members.map (fun m => if m.1 = key then (key, value) else m)).find? (fun m => m.1 = key) =
      some (key, value) := by
  induction members with
  | nil => simp at h
  | cons m members ih =>
    by_cases hm : m.1 = key
    · simp [hm]
    · have hrest : members.any (fun m => m.1 = key) = true := by simpa [hm] using h
      rw [List.map_cons, if_neg hm, List.find?_cons_of_neg (by simpa using hm)]
      exact ih hrest

theorem get?_put_self : Json.get? key (.obj (Json.put members key value)) = some value := by
  rw [Json.put]
  by_cases h : members.any (fun m => m.1 = key) = true
  · rw [if_pos h, Json.get?, find?_put h]
    rfl
  · have hnone : members.find? (fun m => m.1 = key) = none := by
      apply List.find?_eq_none.mpr
      intro m hm
      simp only [List.any_eq_true, not_exists, not_and] at h
      exact h m hm
    rw [if_neg h, Json.get?, List.find?_append, hnone]
    simp

theorem get?_put_ne (hne : key' ≠ key) :
    Json.get? key' (.obj (Json.put members key value)) = Json.get? key' (.obj members) := by
  rw [Json.put]
  by_cases h : members.any (fun m => m.1 = key) = true
  · rw [if_pos h, Json.get?, Json.get?]
    congr 1
    clear h
    induction members with
    | nil => rfl
    | cons m members ih =>
      by_cases hm : m.1 = key
      · have hskip : m.1 ≠ key' := by
          rw [hm]
          exact hne.symm
        rw [List.map_cons, if_pos hm, List.find?_cons_of_neg (by simpa using hne.symm),
          List.find?_cons_of_neg (by simpa using hskip), ih]
      · rw [List.map_cons, if_neg hm, List.find?_cons, List.find?_cons, ih]
  · rw [if_neg h, Json.get?, Json.get?, List.find?_append]
    cases hfind : members.find? (fun m => m.1 = key') with
    | none => simp [hne.symm]
    | some m => rfl

end Members

def Shows (kind : AssetCode) (m : Message) (name password : String) : Prop :=
  match kind with
  | .btc => m.params = some (.arr [.str name, .str password])
  | .xmr => m.paramMember "login" = some (.str name) ∧ m.paramMember "pass" = some (.str password)

section Sessions

variable (Name : Id → String → Prop) (Word : Id → String → Prop)

/-- A login shows the user name and the password of one upstream, and a submit of Bitcoin
the user name. A submit of Monero names nobody. -/
structure Vouched (kind : AssetCode) (m : Message) : Prop where
  login : m.isMethod (loginMethod kind) = true →
    ∃ upstreamId name password, Name upstreamId name ∧ Word upstreamId password ∧
      Shows kind m name password
  submit : kind = .btc → m.isMethod (submitMethod .btc) = true →
    ∃ upstreamId name, Name upstreamId name ∧ m.paramItems.head? = some (.str name)

/-- A user name is rendered for the upstream that the session is bound to, and candidates
come with their own passwords. -/
structure Renders (g : Gateway) (a : Reply) : Prop where
  username : ∀ b, g.session.binding = some b → Name b.upstreamId a.username
  passwords : ∀ upstream ∈ a.candidates, Word upstream.upstreamId upstream.password

def Named (g : Gateway) : Prop := ∀ b, g.session.binding = some b → Name b.upstreamId b.username

structure Secluded (kind : AssetCode) (g : Gateway) : Prop where
  password : ∀ b, g.session.binding = some b → Word b.upstreamId b.password
  named : kind = .btc → g.session.connectionId.isSome = true →
    g.session.upstream.isSome = true ∧ Named Name g
  forwarded : ∀ n fm p reached, .forwarded n fm p reached ∈ g.log → Vouched Name Word kind fm

def Ready (kind : AssetCode) : After → Prop
  | .authorize _ _ => True
  | .forward m _ _ => Vouched Name Word kind m

structure Dialling (kind : AssetCode) (g : Gateway) (after : After) (upstreams : List Candidate) :
    Prop where
  ready : Ready Name Word kind after
  passwords : ∀ upstream ∈ upstreams, Word upstream.upstreamId upstream.password
  first : kind = .btc → g.session.connectionId = none

/-- What a handler of the miner's messages knows at an await. -/
def Knows (kind : AssetCode) (g : Gateway) : DownPoint → Prop
  | .candidates after => Dialling Name Word kind g after []
  | .resolveGatewayProxy after upstream rest => Dialling Name Word kind g after (upstream :: rest)
  | .connectUpstream after upstream rest => Dialling Name Word kind g after (upstream :: rest)
  | .connected after upstream rest _ => Dialling Name Word kind g after (upstream :: rest)
  | .success after upstream rest => Dialling Name Word kind g after (upstream :: rest)
  | .failure after _ rest _ => Dialling Name Word kind g after rest
  | .succeeded after => Ready Name Word kind after
  | .createConnection _ _ => Named Name g ∧ (kind = .btc → g.session.upstream.isSome = true)
  | .connectionCreated _ _ _ => Named Name g ∧ (kind = .btc → g.session.upstream.isSome = true)
  | .updateWorker _ => Named Name g
  | .workerUpdated _ => Named Name g
  | .activePolicy s => Vouched Name Word kind s.message
  | .createShare s _ _ => Vouched Name Word kind s.message
  | .shareCreated s _ => Vouched Name Word kind s.message
  | .receive _ => True
  | .authenticate _ => True
  | .authenticated _ _ => True
  | .protocolError _ => True

def KnowsCall (kind : AssetCode) (g : Gateway) : Call → Prop
  | .downstream p => Knows Name Word kind g p
  | .upstream _ _ => True

end Sessions

/-- A step that leaves alone who is mining where, and forwards nothing. -/
structure Leaves (g g' : Gateway) : Prop where
  binding : g'.session.binding = g.session.binding
  connectionId : g'.session.connectionId = g.session.connectionId
  upstream : g'.session.upstream = g.session.upstream
  forwarded : ∀ n fm p reached, .forwarded n fm p reached ∈ g'.log → .forwarded n fm p reached ∈ g.log

section Frames

variable {g g' g'' : Gateway}

theorem Leaves.refl (g : Gateway) : Leaves g g := ⟨rfl, rfl, rfl, fun _ _ _ _ h => h⟩

theorem Leaves.trans (h : Leaves g g') (h' : Leaves g' g'') : Leaves g g'' :=
  ⟨h'.binding.trans h.binding, h'.connectionId.trans h.connectionId, h'.upstream.trans h.upstream,
    fun n fm p reached hm => h.forwarded n fm p reached (h'.forwarded n fm p reached hm)⟩

theorem leaves_set {s : Session} (hb : s.binding = g.session.binding)
    (hc : s.connectionId = g.session.connectionId) (hu : s.upstream = g.session.upstream) :
    Leaves g (g.set s) := ⟨hb, hc, hu, fun _ _ _ _ h => h⟩

theorem leaves_hold (r : Resources) : Leaves g (g.hold r) := ⟨rfl, rfl, rfl, fun _ _ _ _ h => h⟩

theorem leaves_store (db : Database) : Leaves g (g.store db) := ⟨rfl, rfl, rfl, fun _ _ _ _ h => h⟩

theorem leaves_tell {o : Observation} (ho : ∀ n fm p reached, o ≠ .forwarded n fm p reached) :
    Leaves g (g.tell o) := by
  refine ⟨rfl, rfl, rfl, fun n fm p reached hm => ?_⟩
  obtain hm | hm := List.mem_append.mp hm
  · exact hm
  · exact absurd (List.mem_singleton.mp hm).symm (ho n fm p reached)

theorem leaves_send (m : Message) (origin : Option PendingRpc) : Leaves g (g.send m origin) := by
  rw [Gateway.send]
  split
  · exact Leaves.refl g
  · exact leaves_tell (by simp)

theorem leaves_close (code : String) : Leaves g (g.close code) := by
  rw [Gateway.close]
  split
  · exact Leaves.refl g
  · exact leaves_set rfl rfl rfl

theorem leaves_answered (kind : AssetCode) (m : Message) (p : PendingRpc) :
    Leaves g (answered kind g m p) := by
  obtain he | he := answered_cases kind g m p
  · rw [he]
    exact leaves_send _ _
  · rw [he]
    exact (leaves_send _ _).trans (leaves_close _)

theorem leaves_onResponse (kind : AssetCode) (m : Message) : Leaves g (onResponse kind g m).1 := by
  rw [onResponse]
  split
  · exact Leaves.refl g
  · split
    · exact Leaves.refl g
    · dsimp only
      split
      · exact leaves_set rfl rfl rfl
      · apply Leaves.trans _ (leaves_answered kind m _)
        exact leaves_set rfl rfl rfl

/-- The other side does not change who is mining. -/
theorem leaves_onUpstream {kind : AssetCode} {socket : ℕ} {p : UpPoint} {a : Reply}
    {x : Gateway × Option UpPoint} (hx : onUpstream kind socket g p a = .ok x) : Leaves g x.1 := by
  cases p with
  | receive m =>
    have hheard : Leaves g ((g.set { g.session with
        difficulty := (announces kind m).getD g.session.difficulty }).tell (.heard socket m)) := by
      apply Leaves.trans _ (leaves_tell (by simp))
      exact leaves_set rfl rfl rfl
    simp only [onUpstream] at hx
    split at hx
    · split at hx
      · cases hx
        exact hheard.trans (leaves_close _)
      · cases hx
        exact hheard.trans (leaves_send _ _)
    · cases hx
      exact hheard.trans (leaves_onResponse kind m)
  | resolve m p share =>
    simp only [onUpstream, bind_eq_ok, pure_eq_ok] at hx
    obtain ⟨db, _, rfl⟩ := hx
    exact (leaves_store db).trans (leaves_tell (by simp))
  | resolved m p =>
    cases hx
    exact leaves_answered kind m p
  | protocolError error =>
    cases hx
    exact leaves_close _

theorem leaves_closeAt (point : ClosePoint) : Leaves g (g.closeAt point) := leaves_set rfl rfl rfl

theorem leaves_closed : Leaves g (closed g) := leaves_set rfl rfl rfl

theorem leaves_closeLease : Leaves g (closeLease g) := by
  rw [closeLease]
  split
  · split <;> exact leaves_closeAt _
  · exact leaves_closeAt _

theorem leaves_closeSockets (code : String) : Leaves g (closeSockets g code) := by
  have hdestroyed : Leaves g ((g.set { g.session with downstreamDestroyed := true }).hold
      { g.resources with destroyed := g.resources.destroyed ++ g.session.upstream.toList }) := by
    apply Leaves.trans _ (leaves_hold _)
    exact leaves_set rfl rfl rfl
  rw [closeSockets]
  dsimp only
  split
  · exact hdestroyed.trans (leaves_closeAt _)
  · exact hdestroyed.trans leaves_closeLease

theorem leaves_closeStep (took : Bool) (now : Instant) : Leaves g (closeStep g took now) := by
  rw [closeStep]
  dsimp only
  split
  · exact Leaves.refl g
  · apply Leaves.trans _ (leaves_closeAt _)
    split
    · exact leaves_store _
    · exact Leaves.refl g
  · have hcleared : Leaves g (g.set { g.session with pending := [] }) := leaves_set rfl rfl rfl
    split
    · exact hcleared.trans (leaves_closeAt _)
    · exact hcleared.trans (leaves_closeSockets _)
  · exact leaves_closeSockets _
  · apply Leaves.trans _ leaves_closeLease
    split
    · exact leaves_hold _
    · exact Leaves.refl g
  · split
    · exact (leaves_hold _).trans (leaves_closeAt _)
    · exact leaves_closed
  · split
    · exact leaves_closeAt _
    · exact leaves_closed
  · apply Leaves.trans _ leaves_closed
    split
    · exact leaves_hold _
    · exact Leaves.refl g
  · exact Leaves.refl g

theorem leaves_event (e : Event) : Leaves g (event g e) := by
  cases e with
  | close code => exact leaves_close code
  | closeStep took now => exact leaves_closeStep took now
  | downstreamClosed =>
    apply Leaves.trans _ (leaves_close _)
    exact leaves_set rfl rfl rfl
  | upstreamClosed socket code =>
    simp only [event]
    split
    · exact (leaves_hold _).trans (leaves_close _)
    · exact Leaves.refl g
  | renew =>
    simp only [event]
    split
    · exact Leaves.refl g
    · split
      · exact leaves_hold _
      · exact leaves_close _
  | leaseExpires lease => exact leaves_hold _
  | leaseElsewhere lease =>
    simp only [event]
    split
    · exact Leaves.refl g
    · exact leaves_hold _
  | rewriteShares f hf => exact leaves_store _
  | insertShare share =>
    simp only [event]
    split
    · exact leaves_store _
    · exact Leaves.refl g
  | policies t => exact leaves_store _

end Frames

section Steps

variable {Name Word : Id → String → Prop} {decimal : Decimal} {kind : AssetCode} {g g' : Gateway}
  {a : Reply}

theorem Named.keep (h : Named Name g) (hl : Leaves g g') : Named Name g' := by
  intro b hb
  rw [hl.binding] at hb
  exact h b hb

theorem Secluded.keep (h : Secluded Name Word kind g) (hl : Leaves g g') : Secluded Name Word kind g' where
  password b hb := by
    rw [hl.binding] at hb
    exact h.password b hb
  named hk hc := by
    rw [hl.connectionId] at hc
    obtain ⟨hupstream, hnamed⟩ := h.named hk hc
    rw [hl.upstream]
    exact ⟨hupstream, hnamed.keep hl⟩
  forwarded n fm p reached hm := h.forwarded n fm p reached (hl.forwarded n fm p reached hm)

theorem Renders.keep (h : Renders Name Word g a) (hl : Leaves g g') : Renders Name Word g' a := by
  refine ⟨fun b hb => ?_, h.passwords⟩
  rw [hl.binding] at hb
  exact h.username b hb

theorem Dialling.keep {after : After} {upstreams : List Candidate}
    (h : Dialling Name Word kind g after upstreams) (hc : g'.session.connectionId = g.session.connectionId) :
    Dialling Name Word kind g' after upstreams where
  ready := h.ready
  passwords := h.passwords
  first hk := hc.trans (h.first hk)

theorem Dialling.tail {after : After} {upstream : Candidate} {rest : List Candidate}
    (h : Dialling Name Word kind g after (upstream :: rest)) : Dialling Name Word kind g after rest where
  ready := h.ready
  passwords u hu := h.passwords u (List.mem_cons_of_mem upstream hu)
  first := h.first

theorem Knows.keep {p : DownPoint} (h : Knows Name Word kind g p) (hl : Leaves g g') :
    Knows Name Word kind g' p := by
  cases p with
  | candidates | resolveGatewayProxy | connectUpstream | connected | success | failure =>
    exact Dialling.keep h hl.connectionId
  | createConnection | connectionCreated =>
    obtain ⟨hnamed, hupstream⟩ := h
    refine ⟨hnamed.keep hl, ?_⟩
    rw [hl.upstream]
    exact hupstream
  | updateWorker | workerUpdated => exact Named.keep h hl
  | succeeded | activePolicy | createShare | shareCreated => exact h
  | receive | authenticate | authenticated | protocolError => trivial

structure Goes (Name Word : Id → String → Prop) (kind : AssetCode) (x : Gateway × Option DownPoint) : Prop where
  secluded : Secluded Name Word kind x.1
  knows : ∀ q ∈ x.2, Knows Name Word kind x.1 q

variable {x : Gateway × Option DownPoint}

theorem Goes.stop (h : Secluded Name Word kind g) : Goes Name Word kind (g, none) :=
  ⟨h, fun _ hq => by cases hq⟩

theorem Goes.on {q : DownPoint} (h : Secluded Name Word kind g) (hq : Knows Name Word kind g q) :
    Goes Name Word kind (g, some q) := by
  refine ⟨h, ?_⟩
  rintro _ ⟨⟩
  exact hq

theorem Goes.settle {e : Except String (Gateway × Option DownPoint)} (h : Secluded Name Word kind g)
    (he : ∀ x, e = .ok x → Goes Name Word kind x) : Goes Name Word kind (settle g e) := by
  cases e with
  | error e => exact Goes.on h trivial
  | ok x => exact he x rfl

theorem vouched_withUpstreamId {m : Message} (h : Vouched Name Word kind m) (n : ℕ) :
    Vouched Name Word kind (withUpstreamId kind m n) := by
  obtain ⟨hlogin, hsubmit⟩ := h
  refine ⟨fun hm => ?_, hsubmit⟩
  obtain ⟨upstreamId, name, password, hname, hword, hshows⟩ := hlogin hm
  refine ⟨upstreamId, name, password, hname, hword, ?_⟩
  cases kind <;> exact hshows

theorem forward_goes (h : Secluded Name Word kind g) {m : Message} {method : String}
    {share : Option ShareReference} (hm : Vouched Name Word kind m)
    (hx : forward kind g m method share = .ok x) : Goes Name Word kind x := by
  rw [forward] at hx
  split at hx
  · cases hx
  · cases hx
    apply Goes.stop
    refine ⟨h.password, h.named, fun n fm p reached hf => ?_⟩
    obtain hf | hf := List.mem_append.mp hf
    · exact h.forwarded n fm p reached hf
    · cases List.mem_singleton.mp hf
      exact vouched_withUpstreamId hm _

theorem continueAfter_goes (h : Secluded Name Word kind g) (ha : Renders Name Word g a) {after : After}
    (hready : Ready Name Word kind after) (hx : continueAfter kind g a after = .ok x) :
    Goes Name Word kind x := by
  cases after with
  | forward m method share => exact forward_goes h hready hx
  | authorize m auth =>
    simp only [continueAfter] at hx
    split at hx
    · cases hx
    rename_i binding hbinding
    by_cases hnone : kind = .btc ∧ g.session.upstream.isNone = true
    · rw [if_pos hnone] at hx
      cases hx
    rw [if_neg hnone] at hx
    cases hx
    have hnamed : Named Name (g.set { g.session with
        binding := some { binding with username := a.username } }) := by
      intro b hb
      cases hb
      exact ha.username binding hbinding
    apply Goes.on
    · refine ⟨?_, fun hk hc => ⟨(h.named hk hc).1, hnamed⟩, h.forwarded⟩
      intro b hb
      cases hb
      exact h.password binding hbinding
    · refine ⟨hnamed, fun hk => ?_⟩
      rw [not_and, Option.isNone_iff_eq_none, ← ne_eq, ← Option.isSome_iff_ne_none] at hnone
      exact hnone hk

theorem ensureUpstream_goes (h : Secluded Name Word kind g) (ha : Renders Name Word g a) {after : After}
    (hready : Ready Name Word kind after) (hx : ensureUpstream kind g a after = .ok x) :
    Goes Name Word kind x := by
  rw [ensureUpstream] at hx
  by_cases hsome : kind = .btc ∧ g.session.upstream.isSome = true
  · rw [if_pos hsome] at hx
    exact continueAfter_goes h ha hready hx
  · rw [if_neg hsome] at hx
    cases hx
    apply Goes.on h
    refine ⟨hready, fun _ hu => (by cases hu), fun hk => ?_⟩
    -- a connection would have an upstream already
    by_contra hc
    exact hsome ⟨hk, (h.named hk (Option.isSome_iff_ne_none.mpr hc)).1⟩

theorem dispatch_goes (h : Secluded Name Word kind g) (ha : Renders Name Word g a) {m : Message}
    {method : String} {share : Option ShareReference} (hm : Vouched Name Word kind m)
    (hx : dispatch kind g a m method share = .ok x) : Goes Name Word kind x := by
  cases kind with
  | btc => exact ensureUpstream_goes h ha (show Ready Name Word .btc (.forward m method share) from hm) hx
  | xmr => exact forward_goes h hm hx

theorem vouched_other {m : Message} (hlogin : m.isMethod (loginMethod kind) = false)
    (hsubmit : kind = .btc → m.isMethod (submitMethod .btc) = false) : Vouched Name Word kind m := by
  constructor
  · intro hm
    rw [hlogin] at hm
    cases hm
  · intro hk hm
    rw [hsubmit hk] at hm
    cases hm

theorem vouched_login {m : Message} {b : UpstreamBinding} (hname : Name b.upstreamId b.username)
    (hword : Word b.upstreamId b.password) : Vouched Name Word kind (rewriteLogin kind m b) := by
  refine ⟨fun _ => ⟨b.upstreamId, b.username, b.password, hname, hword, ?_⟩, ?_⟩
  · cases kind with
    | btc => rfl
    | xmr =>
      refine ⟨?_, get?_put_self⟩
      exact (get?_put_ne (by decide)).trans get?_put_self
  · rintro rfl _
    exact ⟨b.upstreamId, b.username, hname, rfl⟩

theorem vouched_submit (h : Secluded Name Word kind g) {m : Message} {b : UpstreamBinding}
    (hm : m.isMethod (submitMethod kind) = true) (hc : g.session.connectionId.isSome = true)
    (hb : g.session.binding = some b) : Vouched Name Word kind (rewriteSubmit kind m b.username) := by
  cases kind with
  | btc =>
    refine ⟨fun hlogin => ?_, fun _ _ => ⟨b.upstreamId, b.username, (h.named rfl hc).2 b hb, rfl⟩⟩
    have hother : m.isMethod (loginMethod .btc) = false := isMethod_unique hm (by decide)
    exact absurd hlogin (by rw [show (rewriteSubmit .btc m b.username).isMethod (loginMethod .btc) =
      m.isMethod (loginMethod .btc) from rfl, hother]; decide)
  | xmr => exact vouched_other (isMethod_unique hm (by decide)) (fun hk => by cases hk)

theorem submit_goes (h : Secluded Name Word kind g) {m : Message}
    (hm : m.isMethod (submitMethod kind) = true) : Goes Name Word kind (submit kind g m a) := by
  unfold submit
  dsimp only
  split
  · rename_i auth connectionId binding upstream _ hc hb _
    apply Goes.on h
    exact vouched_submit h hm (by rw [hc]; rfl) hb
  · apply Goes.stop
    exact h.keep (leaves_send _ _)

theorem receiveBitcoin_goes (h : Secluded Name Word .btc g) (ha : Renders Name Word g a) {m : Message}
    (hx : onDownstreamBitcoin g m a = .ok x) : Goes Name Word .btc x := by
  rw [onDownstreamBitcoin] at hx
  split at hx
  · cases hx
    exact Goes.stop h
  split at hx
  · cases hx
    exact Goes.on h trivial
  rename_i hlogin
  split at hx
  · rename_i hsubmit
    cases hx
    exact submit_goes h hsubmit
  rename_i hsubmit
  split at hx
  · apply dispatch_goes h ha _ hx
    exact vouched_other (eq_false_of_ne_true hlogin) (fun _ => eq_false_of_ne_true hsubmit)
  · cases hx
    exact Goes.stop (h.keep (leaves_send _ _))

theorem receiveMonero_goes (h : Secluded Name Word .xmr g) (ha : Renders Name Word g a) {m : Message}
    (hx : onDownstreamMonero g m a = .ok x) : Goes Name Word .xmr x := by
  rw [onDownstreamMonero] at hx
  split at hx
  · cases hx
    exact Goes.on h trivial
  rename_i hlogin
  split at hx
  · rename_i hsubmit
    cases hx
    exact submit_goes h hsubmit
  split at hx
  · apply dispatch_goes h ha _ hx
    exact vouched_other (eq_false_of_ne_true hlogin) (fun hk => by cases hk)
  · cases hx
    exact Goes.stop (h.keep (leaves_send _ _))

theorem onDownstream_goes {p : DownPoint} (h : Secluded Name Word kind g) (hp : Knows Name Word kind g p)
    (ha : Renders Name Word g a) (hx : onDownstream decimal kind g p a = .ok x) : Goes Name Word kind x := by
  cases p with
  | receive m =>
    cases hx
    have hl : Leaves g (g.tell (.received m)) := leaves_tell (by simp)
    apply Goes.settle (h.keep hl)
    intro x hx
    cases kind with
    | btc => exact receiveBitcoin_goes (h.keep hl) (ha.keep hl) hx
    | xmr => exact receiveMonero_goes (h.keep hl) (ha.keep hl) hx
  | authenticate m =>
    simp only [onDownstream] at hx
    split at hx
    · cases hx
      apply Goes.stop
      exact h.keep ((leaves_send _ _).trans (leaves_close _))
    · cases hx
      exact Goes.on (h.keep (leaves_hold _)) trivial
  | authenticated m auth =>
    cases hx
    have hl : Leaves g (g.set { g.session with
        authorized := some auth, countedConnection := true,
        heartbeats := g.session.heartbeats + 1 }) := leaves_set rfl rfl rfl
    apply Goes.settle (h.keep hl)
    intro x hx
    exact ensureUpstream_goes (h.keep hl) (ha.keep hl) (show Ready Name Word kind (.authorize m auth) from trivial) hx
  | candidates after =>
    simp only [onDownstream] at hx
    split at hx
    · cases hx
    · rename_i upstream rest hlist
      cases hx
      apply Goes.on h
      refine ⟨hp.ready, fun u hu => ?_, hp.first⟩
      exact ha.passwords u (by rw [hlist]; exact hu)
  | resolveGatewayProxy after upstream rest =>
    cases hx
    exact Goes.on h hp
  | connectUpstream after upstream rest =>
    cases hx
    exact Goes.on (h.keep (leaves_hold _)) (Dialling.keep hp rfl)
  | connected after upstream rest socket =>
    cases hx
    apply Goes.on
    · refine ⟨?_, fun hk hc => ?_, h.forwarded⟩
      · intro b hb
        cases hb
        exact hp.passwords upstream List.mem_cons_self
      · rw [show (g.set { g.session with
            binding := some ⟨upstream.upstreamId, "", upstream.password⟩
            upstream := some socket }).session.connectionId = none from hp.first hk] at hc
        cases hc
    · exact Dialling.keep hp rfl
  | success after upstream rest =>
    cases hx
    exact Goes.on h hp.ready
  | succeeded after =>
    cases hx
    apply Goes.settle h
    intro x hx
    exact continueAfter_goes h ha hp hx
  | failure after upstream rest error =>
    simp only [onDownstream] at hx
    split at hx
    · cases hx
    · cases hx
      exact Goes.on h hp
  | createConnection m auth =>
    simp only [onDownstream, bind_eq_ok, orThrow_eq_ok, pure_eq_ok] at hx
    obtain ⟨connections, _, rfl⟩ := hx
    have hl : Leaves g ((g.store (withConnections g.db connections)).hold
        { g.resources with created := g.resources.created ++ [a.newId 0] }) :=
      (leaves_store _).trans (leaves_hold _)
    exact Goes.on (h.keep hl) (Knows.keep (p := .createConnection m auth) hp hl)
  | connectionCreated m auth id =>
    cases hx
    obtain ⟨hnamed, hupstream⟩ := hp
    apply Goes.on
    · exact ⟨h.password, fun hk _ => ⟨hupstream hk, hnamed⟩, h.forwarded⟩
    · exact hnamed
  | updateWorker m =>
    cases hx
    exact Goes.on h hp
  | workerUpdated m =>
    cases hx
    apply Goes.settle h
    intro x hx
    rw [forwardLogin] at hx
    split at hx
    · cases hx
    · rename_i binding hbinding
      exact dispatch_goes h ha (vouched_login (hp binding hbinding) (h.password binding hbinding)) hx
  | activePolicy s =>
    simp only [onDownstream, bind_eq_ok, orThrow_eq_ok, pure_eq_ok] at hx
    obtain ⟨policy, _, q, _, rfl⟩ := hx
    exact Goes.on h hp
  | createShare s q policy =>
    simp only [onDownstream, bind_eq_ok, orThrow_eq_ok, pure_eq_ok] at hx
    obtain ⟨shares, _, rfl⟩ := hx
    apply Goes.on
    · exact h.keep ((leaves_store _).trans (leaves_tell (by simp)))
    · exact hp
  | shareCreated s share =>
    cases hx
    apply Goes.settle h
    intro x hx
    exact dispatch_goes h ha hp hx
  | protocolError error =>
    cases hx
    exact Goes.stop (h.keep (leaves_close _))

end Steps

section Runs

variable {Name Word : Id → String → Prop} {decimal : Decimal} {kind : AssetCode}

/-- What is left to run after a throw in the loop is the loop. -/
theorem handler_knows {g g' : Gateway} {r r' : Call} {e : String} (h : KnowsCall Name Word kind g r)
    (hl : (∃ a o, effect decimal kind g r a = .ok (g', o)) ∨ g' = g) (hr : handler r e = some r') :
    KnowsCall Name Word kind g' r' := by
  cases r with
  | upstream socket p =>
    obtain ⟨q, _, rfl⟩ := Option.map_eq_some_iff.mp hr
    trivial
  | downstream p =>
    obtain ⟨q, hq, rfl⟩ := Option.map_eq_some_iff.mp hr
    have hloop : ∀ after upstream rest error, q = .failure after upstream rest error →
        Dialling Name Word kind g after (upstream :: rest) →
          KnowsCall Name Word kind g' (.downstream q) := by
      rintro after upstream rest error rfl hdialling
      apply Dialling.keep hdialling.tail
      obtain ⟨a, o, he⟩ | rfl := hl
      · obtain ⟨x, hx, he⟩ := map_eq_ok.mp he
        cases p <;> cases hq <;> cases hx <;> cases he <;> rfl
      · rfl
    cases p with
    | resolveGatewayProxy | connectUpstream | connected | success =>
      exact hloop _ _ _ _ (Option.some.inj hq).symm h
    | protocolError => cases hq
    | _ =>
      cases hq
      trivial

theorem effect_secluded {g g' : Gateway} {r : Call} {a : Reply} {o : Option Call}
    (h : Secluded Name Word kind g) (hr : KnowsCall Name Word kind g r) (ha : Renders Name Word g a)
    (he : effect decimal kind g r a = .ok (g', o)) :
    Secluded Name Word kind g' ∧ (queue r ≠ queue (.downstream (.protocolError "")) → Leaves g g') ∧
      ∀ r' ∈ o, KnowsCall Name Word kind g' r' := by
  cases r with
  | downstream p =>
    obtain ⟨x, hx, he⟩ := map_eq_ok.mp he
    cases he
    have hgoes := onDownstream_goes h hr ha hx
    refine ⟨hgoes.secluded, fun hq => absurd rfl hq, fun r' hr' => ?_⟩
    obtain ⟨q, hq, rfl⟩ := Option.map_eq_some_iff.mp hr'
    exact hgoes.knows q hq
  | upstream socket p =>
    obtain ⟨x, hx, he⟩ := map_eq_ok.mp he
    cases he
    have hl := leaves_onUpstream hx
    refine ⟨h.keep hl, fun _ => hl, fun r' hr' => ?_⟩
    obtain ⟨q, _, rfl⟩ := Option.map_eq_some_iff.mp hr'
    trivial

theorem outline_secluded (Name Word : Id → String → Prop) (decimal : Decimal) (kind : AssetCode) :
    Outline (gateway decimal kind) queue (fun g _ a => Renders Name Word g a) (fun _ _ => True)
      (Secluded Name Word kind) (KnowsCall Name Word kind)
      (fun r g g' => queue r ≠ queue (.downstream (.protocolError "")) → Leaves g g') where
  entry g r _ hr := by
    cases r with
    | upstream socket p => trivial
    | downstream p =>
      cases p with
      | receive m => trivial
      | _ => cases hr
  effect g r a g' o h hr ha he := by
    obtain ⟨hinv, hguar, hnext⟩ := effect_secluded h hr ha he
    exact ⟨hinv, hguar, hnext, fun e r' hr' => handler_knows hr (.inl ⟨a, o, he⟩) hr'⟩
  handler g r e r' _ hr hr' := by
    have hsame : (∃ a o, effect decimal kind g r a = .ok (g, o)) ∨ g = g := .inr rfl
    exact handler_knows hr hsame hr'
  background _ _ _ _ h := h
  event g e h _ := by
    refine ⟨h.keep (leaves_event e), fun r hr => ?_⟩
    cases r with
    | upstream socket p => trivial
    | downstream p => exact Knows.keep hr (leaves_event e)
  stable g g' r r' _ hguar hapart hr' := by
    cases r' with
    | upstream socket p => trivial
    | downstream p =>
      -- only one handler of the miner's messages runs at a time
      apply Knows.keep hr'
      apply hguar
      intro hq
      obtain hnone | hne := hapart
      · rw [hnone] at hq
        cases hq
      · exact hne hq.symm

/-- In every run of a session the pool is shown the operator's user names and passwords
only, those of one upstream together, and a submit of Bitcoin names such a user. -/
theorem pool_hears_operator_only {g : Gateway} (hg : g.Fresh) {c : Config Gateway Call}
    (h : (gateway decimal kind).Run (Allowed queue (fun g _ a => Renders Name Word g a) (fun _ _ => True))
      (.idle g) c) {n : ℕ} {fm : Message} {p : PendingRpc} {reached : Bool}
    (hf : .forwarded n fm p reached ∈ c.shared.log) : Vouched Name Word kind fm := by
  have hstart : Secluded Name Word kind g := by
    refine ⟨?_, ?_, ?_⟩
    · intro b hb
      rw [hg.session] at hb
      cases hb
    · intro _ hc
      rw [hg.session] at hc
      cases hc
    · intro n fm p reached hm
      rw [hg.log] at hm
      cases hm
  have hend := (outline_secluded Name Word decimal kind).run (keyed decimal kind) (Outline.idle hstart) h
  exact hend.inv.forwarded n fm p reached hf

def loginAndSubmit : List (Action Call Reply Event) :=
  handles
    { id := some (.num "1")
      method := some (.str "mining.authorize")
      params := some (.arr [.str "alice", .str "secret"]) }
    { auth := some ⟨1, 1, "lease"⟩
      candidates := [⟨1, "x"⟩]
      username := "pool.1"
      newId := fun _ => 7 } 13 ++
  handles
    { id := some (.num "2")
      method := some (.str "mining.submit")
      params := some (.arr [.str "alice", .str "job"]) }
    { newId := fun _ => 9
      now := 5
      createdAt := 5
      username := "pool.1" } 4

def forwardedParams (c : Config Gateway Call) : List String :=
  c.shared.log.filterMap (fun
    | .forwarded _ m _ _ => m.params.map Json.stringify
    | _ => none)

def SampleName (upstreamId : Id) (name : String) : Prop := upstreamId = 1 ∧ name = "pool.1"

def SampleWord (upstreamId : Id) (password : String) : Prop := upstreamId = 1 ∧ password = "x"

def rendersSample (g : Gateway) (a : Reply) : Bool :=
  g.session.binding.all (fun b => b.upstreamId = 1) && decide (a.username = "pool.1") &&
    a.candidates.all (fun u => decide (u.upstreamId = 1 ∧ u.password = "x"))

theorem rendersSample_sound {g : Gateway} {a : Reply} (h : rendersSample g a = true) :
    Renders SampleName SampleWord g a := by
  simp only [rendersSample, Bool.and_eq_true, decide_eq_true_eq, List.all_eq_true,
    Option.all_eq_true] at h
  obtain ⟨⟨hbound, hname⟩, hwords⟩ := h
  exact ⟨fun b hb => ⟨hbound b hb, hname⟩, hwords⟩

theorem pool_hears_operator_only_sample :
    ∃ c, (gateway sampleDecimal .btc).Run (Allowed queue
        (fun g _ a => Renders SampleName SampleWord g a) (fun _ _ => True))
        (.idle (sampleGateway .btc)) c ∧
      forwardedParams c = ["[\"pool.1\",\"x\"]", "[\"pool.1\",\"job\"]"] ∧
      ∀ n fm p reached, .forwarded n fm p reached ∈ c.shared.log →
        Vouched SampleName SampleWord .btc fm := by
  have hexec : ((gateway sampleDecimal .btc).execAlone (fun g _ a => rendersSample g a)
      (.idle (sampleGateway .btc)) loginAndSubmit).map forwardedParams =
        some ["[\"pool.1\",\"x\"]", "[\"pool.1\",\"job\"]"] := by decide +kernel
  obtain ⟨c, hc, hparams⟩ := Option.map_eq_some_iff.mp hexec
  have hrun := (Machine.execAlone_run queue (P := fun g _ a => Renders SampleName SampleWord g a)
    (Q := fun _ _ => True) (fun _ _ _ => rendersSample_sound) (fun _ _ => rfl) hc).1
  exact ⟨c, hrun, hparams, fun n fm p reached hf =>
    pool_hears_operator_only (sampleGateway_fresh .btc) hrun hf⟩

end Runs

end Bitmine.PoolIdentity
