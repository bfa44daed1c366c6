import Bitmine.GatewaySession
import Bitmine.Lib.History

namespace Bitmine.SessionHistory

open Bitmine.Lib.UniqueTable Bitmine.Lib.Throwing Bitmine.Lib.Await Bitmine.Lib.JsonText
open Bitmine.Lib.Rounding Bitmine.Lib.History
open Bitmine.Schema Bitmine.Shares Bitmine.GatewaySession

def responseKey (m : Message) : Option String :=
  if m.hasMethod then none else (m.id.filter (fun j => !j.isNull)).map Json.text

def Responds (n : ℕ) (o : Observation) : Prop :=
  ∃ socket m, o = .heard socket m ∧ responseKey m = some (toString n)

def Open (n : ℕ) (p : PendingRpc) (l : List Observation) : Prop :=
  ∃ l₁ m reached l₂, l = l₁ ++ .forwarded n m p reached :: l₂ ∧ ∀ o ∈ l₂, ¬ Responds n o

/-- The message is the first response to the request since it was forwarded. -/
def Answered (n : ℕ) (p : PendingRpc) (socket : ℕ) (m : Message) (l : List Observation) : Prop :=
  ∃ l₁ fm reached l₂ l₃, l = l₁ ++ .forwarded n fm p reached :: (l₂ ++ .heard socket m :: l₃) ∧
    (∀ o ∈ l₂, ¬ Responds n o) ∧ responseKey m = some (toString n)

def current (kind : AssetCode) (heard : List Message) : String :=
  heard.foldl (fun d m => (announces kind m).getD d) "1"

structure Read (kind : AssetCode) (l : List Observation) (s : Submit) : Prop where
  received : .received s.received ∈ l
  id : s.message.id = s.received.id
  jobId : s.jobId = jobIdOf kind s.received
  difficulty : s.difficulty = current kind s.heard
  heard : s.heard <+: heardIn l

def Forwards (l : List Observation) (r : ShareReference) : Prop :=
  ∃ n m p reached, .forwarded n m p reached ∈ l ∧ p.shareEvent = some r

def Resolves (l : List Observation) (r : ShareReference) : Prop :=
  ∃ status m, .resolved r status m ∈ l

/-- A submit goes upstream with a share of its own, anything else with none. -/
def Owns (kind : AssetCode) (l : List Observation) (m : Message) : Option ShareReference → Prop
  | none => m.isMethod (submitMethod kind) = false
  | some r => (∃ s share, .journaled s share ∈ l ∧ referenceOf share = r ∧ m = s.message) ∧
      ¬ Forwards l r

/-- Why an entry may follow the entries before it. -/
def Justifies (decimal : Decimal) (kind : AssetCode) (l : List Observation) : Observation → Prop
  | .received _ => True
  | .journaled s share => Read kind l s ∧ share.status = .pending ∧
      (∃ q, decimal s.difficulty = some q ∧ share.difficulty = roundPlaces 18 q ∧
        share.normalizedWork = normalizedWork kind q) ∧
      ∀ s' share', .journaled s' share' ∈ l → referenceOf share' ≠ referenceOf share
  | .forwarded n fm p _ => (∀ n' m' p' r', .forwarded n' m' p' r' ∈ l → n' < n) ∧
      ∃ m, Owns kind l m p.shareEvent ∧ fm = withUpstreamId kind m n ∧ p.downstreamId = m.idOrNull
  | .heard _ _ => True
  | .resolved r status m => (∃ n p socket, Answered n p socket m l ∧ p.shareEvent = some r) ∧
      status = some (if accepts kind m then .accepted else .rejected) ∧ ¬ Resolves l r
  | .sent m (some p) => ∃ m₀, m = { m₀ with id := some p.downstreamId } ∧
      ∀ r, p.shareEvent = some r → (∃ n fm reached, .forwarded n fm p reached ∈ l) ∧
        ∃ status, .resolved r status m₀ ∈ l
  | .sent _ none => True

section Facts

variable {decimal : Decimal} {kind : AssetCode} {l l' : List Observation}

theorem not_responds {n : ℕ} {o : Observation} (h : ∀ socket m, o ≠ .heard socket m) :
    ¬ Responds n o := by
  rintro ⟨socket, m, rfl, _⟩
  exact h socket m rfl

theorem Open.snoc {n : ℕ} {p : PendingRpc} (h : Open n p l) {o : Observation}
    (ho : ¬ Responds n o) : Open n p (l ++ [o]) := by
  obtain ⟨l₁, m, reached, l₂, rfl, hl₂⟩ := h
  refine ⟨l₁, m, reached, l₂ ++ [o], by simp, fun x hx => ?_⟩
  obtain hx | hx := List.mem_append.mp hx
  · exact hl₂ x hx
  · rwa [List.mem_singleton.mp hx]

theorem Open.answer {n : ℕ} {p : PendingRpc} (h : Open n p l) {socket : ℕ} {m : Message}
    (hm : responseKey m = some (toString n)) : Answered n p socket m (l ++ [.heard socket m]) := by
  obtain ⟨l₁, fm, reached, l₂, rfl, hl₂⟩ := h
  exact ⟨l₁, fm, reached, l₂, [], by simp, hl₂, hm⟩

theorem Answered.append {n socket : ℕ} {p : PendingRpc} {m : Message}
    (h : Answered n p socket m l) (new : List Observation) :
    Answered n p socket m (l ++ new) := by
  obtain ⟨l₁, fm, reached, l₂, l₃, rfl, hl₂, hm⟩ := h
  exact ⟨l₁, fm, reached, l₂, l₃ ++ new, by simp, hl₂, hm⟩

theorem Answered.forwarded {n socket : ℕ} {p : PendingRpc} {m : Message}
    (h : Answered n p socket m l) : ∃ fm reached, .forwarded n fm p reached ∈ l := by
  obtain ⟨l₁, fm, reached, l₂, l₃, rfl, _⟩ := h
  exact ⟨fm, reached, by simp⟩

theorem Open.forwarded {n : ℕ} {p : PendingRpc} (h : Open n p l) :
    ∃ fm reached, .forwarded n fm p reached ∈ l := by
  obtain ⟨l₁, fm, reached, l₂, rfl, _⟩ := h
  exact ⟨fm, reached, by simp⟩

theorem forwarded_unique (hj : Justified (Justifies decimal kind) l) {n : ℕ}
    {l₁ l₂ l₁' l₂' : List Observation} {m m' : Message} {p p' : PendingRpc} {r r' : Bool}
    (h : l = l₁ ++ .forwarded n m p r :: l₂) (h' : l = l₁' ++ .forwarded n m' p' r' :: l₂') :
    p = p' ∧ l₂ = l₂' := by
  have hfirst : ∀ {k₁ x q b k₂}, l = k₁ ++ .forwarded n x q b :: k₂ →
      ∀ o ∈ k₁, ¬ ∃ x' q' b', o = .forwarded n x' q' b' := by
    rintro k₁ x q b k₂ hk _ ho ⟨x', q', b', rfl⟩
    exact lt_irrefl _ ((hj _ _ _ hk).1 n x' q' b' ho)
  obtain ⟨_, ho, hl⟩ := first_unique (P := fun o => ∃ x q b, o = .forwarded n x q b)
    (h.symm.trans h') ⟨m, p, r, rfl⟩ ⟨m', p', r', rfl⟩ (hfirst h) (hfirst h')
  cases ho
  exact ⟨rfl, hl⟩

theorem Open.not_answered (hj : Justified (Justifies decimal kind) l) {n socket : ℕ}
    {p p' : PendingRpc} {m : Message} (h : Open n p l) : ¬ Answered n p' socket m l := by
  rintro ⟨l₁', fm', r', l₂', l₃', he', _, hm⟩
  obtain ⟨l₁, fm, r, l₂, he, hl₂⟩ := h
  obtain ⟨_, rfl⟩ := forwarded_unique hj he he'
  exact hl₂ (.heard socket m) (by simp) ⟨socket, m, rfl, hm⟩

theorem Answered.unique (hj : Justified (Justifies decimal kind) l) {n socket socket' : ℕ}
    {p p' : PendingRpc} {m m' : Message} (h : Answered n p socket m l)
    (h' : Answered n p' socket' m' l) : socket = socket' ∧ m = m' := by
  obtain ⟨l₁, fm, r, l₂, l₃, he, hl₂, hm⟩ := h
  obtain ⟨l₁', fm', r', l₂', l₃', he', hl₂', hm'⟩ := h'
  obtain ⟨_, ht⟩ := forwarded_unique hj he he'
  obtain ⟨_, ho, _⟩ := first_unique ht ⟨socket, m, rfl, hm⟩ ⟨socket', m', rfl, hm'⟩ hl₂ hl₂'
  cases ho
  exact ⟨rfl, rfl⟩

theorem share_forwarded_once (hj : Justified (Justifies decimal kind) l) {n n' : ℕ} {m m' : Message}
    {p p' : PendingRpc} {b b' : Bool} {r : ShareReference} (h : .forwarded n m p b ∈ l)
    (hp : p.shareEvent = some r) (h' : .forwarded n' m' p' b' ∈ l) (hp' : p'.shareEvent = some r) :
    n = n' := by
  by_contra hne
  have hbefore : ∀ {k₁ k₂ x x' q q' c c' i i'}, l = k₁ ++ .forwarded i x q c :: k₂ →
      .forwarded i' x' q' c' ∈ k₁ → q.shareEvent = some r → q'.shareEvent = some r → False := by
    intro k₁ k₂ x x' q q' c c' i i' hk hm hq hq'
    obtain ⟨_, y, hown, _⟩ := hj _ _ _ hk
    rw [hq] at hown
    exact hown.2 ⟨i', x', q', c', hm, hq'⟩
  obtain ⟨l₁, l₂, he, hm⟩ | ⟨l₁, l₂, he, hm⟩ :=
    before_or_before h h' (fun he => hne (by cases he; rfl))
  · exact hbefore he hm hp' hp
  · exact hbefore he hm hp hp'

theorem Forwards.mono {r : ShareReference} (h : Forwards l r) (hs : l ⊆ l') : Forwards l' r := by
  obtain ⟨n, m, p, reached, hm, hp⟩ := h
  exact ⟨n, m, p, reached, hs hm, hp⟩

theorem heardIn_append : heardIn (l ++ l') = heardIn l ++ heardIn l' := List.filterMap_append

theorem current_snoc (heard : List Message) (m : Message) :
    current kind (heard ++ [m]) = (announces kind m).getD (current kind heard) := by
  simp [current]

theorem Read.append {s : Submit} (h : Read kind l s) (new : List Observation) :
    Read kind (l ++ new) s where
  received := List.mem_append_left _ h.received
  id := h.id
  jobId := h.jobId
  difficulty := h.difficulty
  heard := by
    rw [heardIn_append]
    exact h.heard.trans (List.prefix_append _ _)

end Facts

/-- The journal holds a row for the share. -/
def Stored (g : Gateway) (r : ShareReference) : Prop :=
  ∃ s ∈ g.db.shareEvents.rows, referenceOf s = r

/-- What holds of a session at all times. -/
structure Consistent (decimal : Decimal) (kind : AssetCode) (g : Gateway) : Prop where
  justified : Justified (Justifies decimal kind) g.log
  numbers : ∀ n m p reached, .forwarded n m p reached ∈ g.log → n < g.session.nextId
  pending : ∀ e ∈ g.session.pending, ∃ n, e.1 = toString n ∧ Open n e.2 g.log
  stored : ∀ s share, .journaled s share ∈ g.log → Stored g (referenceOf share)
  difficulty : g.session.difficulty = current kind (heardIn g.log)

/-- What is to follow the connection to the upstream can be done. -/
def After.Sound (kind : AssetCode) (l : List Observation) : After → Prop
  | .authorize m _ => m.isMethod (submitMethod kind) = false
  | .forward m _ share => Owns kind l m share

/-- What a downstream handler knows at an await. -/
def DownSound (decimal : Decimal) (kind : AssetCode) (l : List Observation) : DownPoint → Prop
  | .receive _ => True
  | .authenticate m => m.isMethod (submitMethod kind) = false
  | .authenticated m _ => m.isMethod (submitMethod kind) = false
  | .candidates after => After.Sound kind l after
  | .resolveGatewayProxy after _ _ => After.Sound kind l after
  | .connectUpstream after _ _ => After.Sound kind l after
  | .connected after _ _ _ => After.Sound kind l after
  | .success after _ _ => After.Sound kind l after
  | .succeeded after => After.Sound kind l after
  | .failure after _ _ _ => After.Sound kind l after
  | .createConnection m _ => m.isMethod (submitMethod kind) = false
  | .connectionCreated m _ _ => m.isMethod (submitMethod kind) = false
  | .updateWorker m => m.isMethod (submitMethod kind) = false
  | .workerUpdated m => m.isMethod (submitMethod kind) = false
  | .activePolicy s => Read kind l s
  | .createShare s q _ => Read kind l s ∧ decimal s.difficulty = some q
  | .shareCreated s r => Owns kind l s.message (some r)
  | .protocolError _ => True

def UpSound (l : List Observation) (socket : ℕ) : UpPoint → Prop
  | .receive _ => True
  | .resolve m p r => (∃ n, Answered n p socket m l) ∧ p.shareEvent = some r ∧ ¬ Resolves l r
  | .resolved m p => ∀ r, p.shareEvent = some r →
      (∃ n fm reached, .forwarded n fm p reached ∈ l) ∧ ∃ status, .resolved r status m ∈ l
  | .protocolError _ => True

def Sound (decimal : Decimal) (kind : AssetCode) (g : Gateway) : Call → Prop
  | .downstream p => DownSound decimal kind g.log p
  | .upstream socket p => UpSound g.log socket p

/-- The entries that a call can make: only the miner's side forwards, only the
response to a submit resolves. -/
def Makes (r : Call) : Observation → Prop
  | .forwarded _ _ _ _ => ∃ p, r = .downstream p
  | .resolved share _ _ => ∃ socket m p, r = .upstream socket (.resolve m p share)
  | _ => True

def Grows (r : Call) (l l' : List Observation) : Prop := ∃ new, l' = l ++ new ∧ ∀ o ∈ new, Makes r o

theorem Grows.refl (r : Call) (l : List Observation) : Grows r l l := ⟨[], by simp, by simp⟩

theorem Grows.snoc {r : Call} {l l' : List Observation} (h : Grows r l l') {o : Observation}
    (ho : Makes r o) : Grows r l (l' ++ [o]) := by
  obtain ⟨new, rfl, hnew⟩ := h
  refine ⟨new ++ [o], by simp, fun x hx => ?_⟩
  obtain hx | hx := List.mem_append.mp hx
  · exact hnew x hx
  · rwa [List.mem_singleton.mp hx]

theorem Grows.trans {r : Call} {l l' l'' : List Observation} (h : Grows r l l')
    (h' : Grows r l' l'') : Grows r l l'' := by
  obtain ⟨new, rfl, hnew⟩ := h
  obtain ⟨new', rfl, hnew'⟩ := h'
  refine ⟨new ++ new', by simp, fun x hx => ?_⟩
  exact (List.mem_append.mp hx).elim (hnew x) (hnew' x)

section Stability

variable {decimal : Decimal} {kind : AssetCode} {r : Call} {l new : List Observation}

theorem Owns.grow {m : Message} {share : Option ShareReference} (h : Owns kind l m share)
    (hnew : ∀ o ∈ new, Makes r o) (hr : ∀ p, r ≠ .downstream p) :
    Owns kind (l ++ new) m share := by
  cases share with
  | none => exact h
  | some share =>
    obtain ⟨⟨s, e, hs, he, hm⟩, hf⟩ := h
    refine ⟨⟨s, e, List.mem_append_left _ hs, he, hm⟩, ?_⟩
    rintro ⟨n, x, p, reached, hx, hp⟩
    obtain hx | hx := List.mem_append.mp hx
    · exact hf ⟨n, x, p, reached, hx, hp⟩
    · obtain ⟨q, hq⟩ := hnew _ hx
      exact hr q hq

theorem After.Sound.grow {after : After} (h : After.Sound kind l after)
    (hnew : ∀ o ∈ new, Makes r o) (hr : ∀ p, r ≠ .downstream p) :
    After.Sound kind (l ++ new) after := by
  cases after with
  | authorize m auth => exact h
  | forward m method share => exact Owns.grow h hnew hr

theorem DownSound.grow {p : DownPoint} (h : DownSound decimal kind l p)
    (hnew : ∀ o ∈ new, Makes r o) (hr : ∀ p, r ≠ .downstream p) : DownSound decimal kind (l ++ new) p := by
  cases p with
  | receive | authenticate | authenticated | createConnection | connectionCreated | updateWorker |
    workerUpdated | protocolError => exact h
  | candidates | resolveGatewayProxy | connectUpstream | connected | success | succeeded | failure =>
    exact After.Sound.grow h hnew hr
  | activePolicy s => exact Read.append h new
  | createShare s q policy => exact ⟨Read.append h.1 new, h.2⟩
  | shareCreated s share =>
    exact Owns.grow (show Owns kind l s.message (some share) from h) hnew hr

theorem UpSound.grow (hj : Justified (Justifies decimal kind) l) {g : Gateway} (hl : g.log = l)
    {socket : ℕ} {p : UpPoint} (h : UpSound l socket p) (hs : Sound decimal kind g r)
    (hnew : ∀ o ∈ new, Makes r o) (hr : ∀ q, r ≠ .upstream socket q) :
    UpSound (l ++ new) socket p := by
  subst hl
  cases p with
  | receive | protocolError => exact h
  | resolve m p share =>
    obtain ⟨⟨n, ha⟩, hp, hres⟩ := h
    refine ⟨⟨n, ha.append new⟩, hp, ?_⟩
    rintro ⟨status, x, hx⟩
    obtain hx | hx := List.mem_append.mp hx
    · exact hres ⟨status, x, hx⟩
    · obtain ⟨socket', m', p', rfl⟩ := hnew _ hx
      obtain ⟨⟨n', ha'⟩, hp', _⟩ := hs
      obtain ⟨_, _, hf⟩ := ha.forwarded
      obtain ⟨_, _, hf'⟩ := ha'.forwarded
      obtain rfl := share_forwarded_once hj hf hp hf' hp'
      exact hr _ (by rw [(ha.unique hj ha').1])
  | resolved m p =>
    intro share hp
    obtain ⟨⟨n, fm, reached, hf⟩, status, hx⟩ := h share hp
    exact ⟨⟨n, fm, reached, List.mem_append_left _ hf⟩, status, List.mem_append_left _ hx⟩

end Stability

section Steps

variable {decimal : Decimal} {kind : AssetCode} {g g' : Gateway}

@[simp] theorem close_log (g : Gateway) (code : String) : (g.close code).log = g.log := by
  rw [Gateway.close]
  split <;> rfl

@[simp] theorem close_db (g : Gateway) (code : String) : (g.close code).db = g.db := by
  rw [Gateway.close]
  split <;> rfl

structure Quiet (g g' : Gateway) : Prop where
  log : g'.log = g.log
  nextId : g'.session.nextId = g.session.nextId
  pending : g'.session.pending ⊆ g.session.pending
  difficulty : g'.session.difficulty = g.session.difficulty
  stored : ∀ r, Stored g r → Stored g' r

theorem Quiet.refl (g : Gateway) : Quiet g g :=
  ⟨rfl, rfl, List.Subset.refl _, rfl, fun _ hr => hr⟩

theorem Quiet.trans {g'' : Gateway} (h : Quiet g g') (h' : Quiet g' g'') : Quiet g g'' :=
  ⟨h'.log.trans h.log, h'.nextId.trans h.nextId, List.Subset.trans h'.pending h.pending,
    h'.difficulty.trans h.difficulty, fun r hr => h'.stored r (h.stored r hr)⟩

theorem quiet_set {s : Session} (hn : s.nextId = g.session.nextId)
    (hp : s.pending ⊆ g.session.pending) (hd : s.difficulty = g.session.difficulty) :
    Quiet g (g.set s) := ⟨rfl, hn, hp, hd, fun _ hr => hr⟩

theorem quiet_hold (r : Resources) : Quiet g (g.hold r) :=
  ⟨rfl, rfl, List.Subset.refl _, rfl, fun _ hr => hr⟩

theorem quiet_store {db : Database} (hs : ∀ r, Stored g r → Stored (g.store db) r) :
    Quiet g (g.store db) := ⟨rfl, rfl, List.Subset.refl _, rfl, hs⟩

theorem quiet_close (code : String) : Quiet g (g.close code) := by
  rw [Gateway.close]
  split
  · exact Quiet.refl g
  · exact quiet_set rfl (List.Subset.refl _) rfl

theorem Consistent.keep (h : Consistent decimal kind g) (hq : Quiet g g') :
    Consistent decimal kind g' where
  justified := hq.log ▸ h.justified
  numbers n m p reached hm := by
    rw [hq.nextId]
    exact h.numbers n m p reached (hq.log ▸ hm)
  pending e he := by
    rw [hq.log]
    exact h.pending e (hq.pending he)
  stored s share hm := hq.stored _ (h.stored s share (hq.log ▸ hm))
  difficulty := by rw [hq.difficulty, hq.log, h.difficulty]

theorem Consistent.close (h : Consistent decimal kind g) (code : String) :
    Consistent decimal kind (g.close code) := h.keep (quiet_close code)

def Aside : Observation → Prop
  | .received _ => True
  | .resolved _ _ _ => True
  | .sent _ _ => True
  | _ => False

theorem Consistent.tell (h : Consistent decimal kind g) {o : Observation} (ho : Aside o)
    (hj : Justifies decimal kind g.log o) : Consistent decimal kind (g.tell o) where
  justified := h.justified.snoc hj
  numbers n m p reached hm := by
    obtain hm | hm := List.mem_append.mp hm
    · exact h.numbers n m p reached hm
    · rw [← List.mem_singleton.mp hm] at ho
      cases ho
  pending e he := by
    obtain ⟨n, hk, hopen⟩ := h.pending e he
    refine ⟨n, hk, hopen.snoc (not_responds ?_)⟩
    rintro socket m rfl
    cases ho
  stored s share hm := by
    obtain hm | hm := List.mem_append.mp hm
    · exact h.stored s share hm
    · rw [← List.mem_singleton.mp hm] at ho
      cases ho
  difficulty := by
    have hh : heardIn (g.log ++ [o]) = heardIn g.log := by
      cases o with
      | received | resolved | sent => simp [heardIn]
      | journaled | forwarded | heard => cases ho
    exact h.difficulty.trans (congrArg (current kind) hh.symm)

theorem Consistent.send (h : Consistent decimal kind g) {m : Message} {origin : Option PendingRpc}
    (hj : Justifies decimal kind g.log (.sent m origin)) :
    Consistent decimal kind (g.send m origin) := by
  rw [Gateway.send]
  split
  · exact h
  · exact h.tell trivial hj

theorem grows_send (r : Call) (m : Message) (origin : Option PendingRpc) :
    Grows r g.log (g.send m origin).log := by
  rw [Gateway.send]
  split
  · exact Grows.refl _ _
  · exact (Grows.refl _ _).snoc trivial

/-- A request goes upstream under a number of its own. -/
theorem Consistent.forward (h : Consistent decimal kind g) {m : Message}
    {share : Option ShareReference} (hown : Owns kind g.log m share) (method : String)
    (reached : Bool) :
    Consistent decimal kind ((g.set { g.session with
        nextId := g.session.nextId + 1
        pending := setPending g.session.pending (toString g.session.nextId)
          ⟨m.idOrNull, method, share⟩ }).tell
      (.forwarded g.session.nextId (withUpstreamId kind m g.session.nextId)
        ⟨m.idOrNull, method, share⟩ reached)) where
  justified := h.justified.snoc ⟨h.numbers, m, hown, rfl, rfl⟩
  numbers n m' p r hm := by
    obtain hm | hm := List.mem_append.mp hm
    · exact Nat.lt_succ_of_lt (h.numbers n m' p r hm)
    · cases List.mem_singleton.mp hm
      exact Nat.lt_succ_self _
  pending e he := by
    obtain he | he := List.mem_append.mp he
    · obtain ⟨n, hk, hopen⟩ := h.pending e (List.mem_filter.mp he).1
      exact ⟨n, hk, hopen.snoc (not_responds (by simp))⟩
    · cases List.mem_singleton.mp he
      exact ⟨g.session.nextId, rfl, g.log, _, _, [], rfl, by simp⟩
  stored s e hm := by
    obtain hm | hm := List.mem_append.mp hm
    · exact h.stored s e hm
    · cases List.mem_singleton.mp hm
  difficulty := by
    refine h.difficulty.trans (congrArg (current kind) ?_)
    simp [heardIn, Gateway.tell, Gateway.set]

/-- A message comes in; the request that it answers is no longer pending. -/
theorem Consistent.hear (h : Consistent decimal kind g) {s : Session} {socket : ℕ} {m : Message}
    (hn : s.nextId = g.session.nextId)
    (hd : s.difficulty = (announces kind m).getD g.session.difficulty)
    (hp : ∀ e ∈ s.pending, e ∈ g.session.pending ∧ responseKey m ≠ some e.1) :
    Consistent decimal kind ((g.set s).tell (.heard socket m)) where
  justified := h.justified.snoc trivial
  numbers n m' p r hm := by
    obtain hm | hm := List.mem_append.mp hm
    · exact hn ▸ h.numbers n m' p r hm
    · cases List.mem_singleton.mp hm
  pending e he := by
    obtain ⟨he, hkey⟩ := hp e he
    obtain ⟨n, hk, hopen⟩ := h.pending e he
    refine ⟨n, hk, hopen.snoc ?_⟩
    rintro ⟨socket', m', ho, hm⟩
    cases ho
    exact hkey (hk ▸ hm)
  stored s' e hm := by
    obtain hm | hm := List.mem_append.mp hm
    · exact h.stored s' e hm
    · cases List.mem_singleton.mp hm
  difficulty := by
    have hh : heardIn (g.log ++ [.heard socket m]) = heardIn g.log ++ [m] := by simp [heardIn]
    apply hd.trans
    rw [h.difficulty, ← current_snoc, ← hh]
    rfl

theorem stored_update {p : ShareEvent → Bool} {f : ShareEvent → ShareEvent} {hf : KeepsKeys f}
    (hs : g'.db.shareEvents = g.db.shareEvents.update p f hf) {r : ShareReference}
    (h : Stored g r) : Stored g' r := by
  obtain ⟨s, hm, rfl⟩ := h
  refine ⟨_, hs ▸ Table.mem_update_of_mem hm, ?_⟩
  split
  · have hk : (f s).id = s.id ∧ (f s).submittedAt = s.submittedAt := Prod.mk.inj (hf s).1
    rw [referenceOf, hk.1, hk.2, referenceOf]
  · rfl

theorem stored_insert {share : ShareEvent} (g' : Gateway)
    (hs : g.db.shareEvents.insert share = some g'.db.shareEvents) :
    Stored g' (referenceOf share) ∧ (∀ r, Stored g r → Stored g' r) ∧
      ¬ Stored g (referenceOf share) := by
  obtain ⟨hrows, hclash⟩ := Table.insert_eq_some hs
  refine ⟨⟨share, by simp [hrows], rfl⟩, ?_, ?_⟩
  · rintro r ⟨s, hm, hr⟩
    exact ⟨s, by simp [hrows, hm], hr⟩
  · rintro ⟨s, hm, hr⟩
    have hk := ShareReference.mk.inj hr
    exact hclash s hm (.inl (Prod.ext hk.1 hk.2))

theorem Consistent.journal (h : Consistent decimal kind g) {s : Submit} {share : ShareEvent}
    {shares : Table ShareEvent} (hi : g.db.shareEvents.insert share = some shares)
    (hr : Read kind g.log s) (hstatus : share.status = .pending)
    (hwork : ∃ q, decimal s.difficulty = some q ∧ share.difficulty = roundPlaces 18 q ∧
      share.normalizedWork = normalizedWork kind q) :
    Consistent decimal kind ((g.store (withShares g.db shares)).tell (.journaled s share)) := by
  obtain ⟨hnew, hkept, hfresh⟩ := stored_insert
    ((g.store (withShares g.db shares)).tell (.journaled s share)) hi
  refine ⟨h.justified.snoc ⟨hr, hstatus, hwork, ?_⟩, ?_, ?_, ?_, ?_⟩
  · intro s' share' hm he
    exact hfresh (he ▸ h.stored s' share' hm)
  · intro n m p reached hm
    obtain hm | hm := List.mem_append.mp hm
    · exact h.numbers n m p reached hm
    · cases List.mem_singleton.mp hm
  · intro e he
    obtain ⟨n, hk, hopen⟩ := h.pending e he
    exact ⟨n, hk, hopen.snoc (not_responds (by simp))⟩
  · intro s' share' hm
    obtain hm | hm := List.mem_append.mp hm
    · exact hkept _ (h.stored s' share' hm)
    · cases List.mem_singleton.mp hm
      exact hnew
  · refine h.difficulty.trans (congrArg (current kind) ?_)
    simp [heardIn, Gateway.tell, Gateway.store]

theorem verdict_keepsKeys (now : Instant) (accepted : Bool) (latencyMs : ℤ)
    (reason : Option String) : KeepsKeys (verdict now accepted latencyMs reason) :=
  fun _ => ⟨rfl, rfl⟩

theorem resolve_ok {db db' : Database} {now : Instant} {r : ShareReference} {accepted : Bool}
    {latencyMs : ℤ} {reason : Option String}
    (h : Shares.resolve db now r accepted latencyMs reason = .ok db') :
    (db.shareEvents.find? (matchesReference r)).isSome ∧
      db'.shareEvents = db.shareEvents.update (matchesReference r)
        (verdict now accepted latencyMs reason) (verdict_keepsKeys now accepted latencyMs reason) := by
  simp only [Shares.resolve, bind_eq_ok, orThrow_eq_ok, pure_eq_ok] at h
  obtain ⟨s, hs, _, _, rfl⟩ := h
  exact ⟨by rw [hs]; rfl, rfl⟩

theorem resolve_status {db db' : Database} {now : Instant} {r : ShareReference} {accepted : Bool}
    {latencyMs : ℤ} {reason : Option String}
    (h : Shares.resolve db now r accepted latencyMs reason = .ok db') :
    statusOf db' r = some (if accepted then .accepted else .rejected) := by
  obtain ⟨hfound, hshares⟩ := resolve_ok h
  obtain ⟨s, hs⟩ := Option.isSome_iff_exists.mp hfound
  have hm := (Table.find?_mem hs).2
  have hkey : ∀ x, matchesReference r (verdict now accepted latencyMs reason x) =
      matchesReference r x := fun _ => rfl
  rw [statusOf, hshares, Table.find?_update hkey, hs]
  simp [hm, verdict]

theorem Consistent.resolve (h : Consistent decimal kind g) {socket : ℕ} {m : Message}
    {p : PendingRpc} {share : ShareReference} {now : Instant} {latencyMs : ℤ}
    {reason : Option String} {db : Database} (hs : UpSound g.log socket (.resolve m p share))
    (hr : Shares.resolve g.db now share (accepts kind m) latencyMs reason = .ok db) :
    Consistent decimal kind ((g.store db).tell (.resolved share (statusOf db share) m)) := by
  have hk : Consistent decimal kind (g.store db) :=
    h.keep (quiet_store (fun _ hs => stored_update (resolve_ok hr).2 hs))
  obtain ⟨⟨n, ha⟩, hp, hres⟩ := hs
  exact hk.tell trivial ⟨⟨n, p, socket, ha, hp⟩, resolve_status hr, hres⟩

theorem answered_cases (kind : AssetCode) (g : Gateway) (m : Message) (p : PendingRpc) :
    answered kind g m p = g.send { m with id := some p.downstreamId } (some p) ∨
    answered kind g m p = (g.send { m with id := some p.downstreamId } (some p)).close
      "upstream-authorization-failed" := by
  unfold answered
  cases kind with
  | btc =>
    by_cases h : p.method = "mining.authorize" ∧ ¬ m.result.any (Json.isBool true) = true
    · exact .inr (if_pos (decide_eq_true h))
    · exact .inl (if_neg (by simpa using h))
  | xmr =>
    by_cases h : p.method = "login" ∧ m.error.any Json.truthy = true
    · exact .inr (if_pos (decide_eq_true h))
    · exact .inl (if_neg (by simpa using h))

theorem Consistent.answered (h : Consistent decimal kind g) {m : Message} {p : PendingRpc}
    (hp : ∀ r, p.shareEvent = some r → (∃ n fm reached, .forwarded n fm p reached ∈ g.log) ∧
      ∃ status, .resolved r status m ∈ g.log) (r : Call) :
    Consistent decimal kind (answered kind g m p) ∧ Grows r g.log (answered kind g m p).log := by
  have hsend : Consistent decimal kind (g.send { m with id := some p.downstreamId } (some p)) :=
    h.send ⟨m, rfl, hp⟩
  obtain he | he := answered_cases kind g m p
  · rw [he]
    exact ⟨hsend, grows_send r _ _⟩
  · rw [he, close_log]
    exact ⟨hsend.close _, grows_send r _ _⟩

end Steps

section Downstream

variable {decimal : Decimal} {kind : AssetCode}

structure DownFine (decimal : Decimal) (kind : AssetCode) (p : DownPoint) (g : Gateway)
    (x : Gateway × Option DownPoint) : Prop where
  consistent : Consistent decimal kind x.1
  grows : Grows (.downstream p) g.log x.1.log
  sound : ∀ q ∈ x.2, DownSound decimal kind x.1.log q

variable {p : DownPoint} {g₀ g : Gateway} {a : Reply}

theorem DownFine.settle (h : Consistent decimal kind g) (hg : Grows (.downstream p) g₀.log g.log)
    {e : Except String (Gateway × Option DownPoint)}
    (he : ∀ x, e = .ok x → DownFine decimal kind p g₀ x) :
    DownFine decimal kind p g₀ (settle g e) := by
  cases e with
  | error e =>
    refine ⟨h, hg, ?_⟩
    rintro q ⟨⟩
    trivial
  | ok x => exact he x rfl

theorem DownFine.send (h : Consistent decimal kind g) (hg : Grows (.downstream p) g₀.log g.log)
    (m : Message) : DownFine decimal kind p g₀ (g.send m none, none) :=
  ⟨h.send trivial, hg.trans (grows_send _ _ _), fun _ h => by cases h⟩

theorem forward_fine (h : Consistent decimal kind g) (hg : Grows (.downstream p) g₀.log g.log)
    {m : Message} {method : String} (share : Option ShareReference) (hown : Owns kind g.log m share)
    {x : Gateway × Option DownPoint} (hx : forward kind g m method share = .ok x) :
    DownFine decimal kind p g₀ x := by
  rw [GatewaySession.forward] at hx
  split at hx
  · cases hx
  · cases hx
    exact ⟨h.forward hown method _, hg.snoc ⟨p, rfl⟩, fun _ h => by cases h⟩

theorem continueAfter_fine (h : Consistent decimal kind g)
    (hg : Grows (.downstream p) g₀.log g.log) (after : After) (hs : After.Sound kind g.log after)
    {x : Gateway × Option DownPoint} (hx : continueAfter kind g a after = .ok x) :
    DownFine decimal kind p g₀ x := by
  cases after with
  | forward m method share => exact forward_fine h hg share hs hx
  | authorize m auth =>
    simp only [continueAfter] at hx
    split at hx
    · cases hx
    · split at hx
      · cases hx
      · cases hx
        refine ⟨h.keep (quiet_set rfl (List.Subset.refl _) rfl), hg, ?_⟩
        rintro q ⟨⟩
        exact hs

theorem ensureUpstream_fine (h : Consistent decimal kind g)
    (hg : Grows (.downstream p) g₀.log g.log) (after : After) (hs : After.Sound kind g.log after)
    {x : Gateway × Option DownPoint} (hx : ensureUpstream kind g a after = .ok x) :
    DownFine decimal kind p g₀ x := by
  rw [ensureUpstream] at hx
  split at hx
  · exact continueAfter_fine h hg after hs hx
  · cases hx
    refine ⟨h, hg, ?_⟩
    rintro q ⟨⟩
    exact hs

theorem dispatch_fine (h : Consistent decimal kind g) (hg : Grows (.downstream p) g₀.log g.log)
    {m : Message} {method : String} (share : Option ShareReference) (hown : Owns kind g.log m share)
    {x : Gateway × Option DownPoint} (hx : dispatch kind g a m method share = .ok x) :
    DownFine decimal kind p g₀ x := by
  cases kind with
  | btc => exact ensureUpstream_fine h hg (.forward m method share) hown hx
  | xmr => exact forward_fine h hg share hown hx

theorem rewriteSubmit_id (m : Message) (username : String) :
    (rewriteSubmit kind m username).id = m.id := by
  cases kind <;> rfl

theorem submit_fine (h : Consistent decimal kind g) (hg : Grows (.downstream p) g₀.log g.log)
    {m : Message} (hm : .received m ∈ g.log) : DownFine decimal kind p g₀ (submit kind g m a) := by
  unfold submit
  dsimp only
  split
  · refine ⟨h, hg, ?_⟩
    rintro q ⟨⟩
    exact ⟨hm, rewriteSubmit_id m _, rfl, h.difficulty, List.prefix_refl _⟩
  · exact DownFine.send h hg _

theorem isMethod_unique {m : Message} {x y : String} (h : m.isMethod x = true) (hne : x ≠ y) :
    m.isMethod y = false := by
  unfold Message.isMethod at h ⊢
  cases hm : m.method with
  | none => rfl
  | some j =>
    rw [hm] at h
    cases j with
    | str s =>
      simp only [Option.any_some, Json.isStr, decide_eq_true_eq] at h
      simp [Json.isStr, h, hne]
    | null | bool | num | arr | obj => cases h

theorem receiveBitcoin_fine (h : Consistent decimal .btc g)
    (hg : Grows (.downstream p) g₀.log g.log) {m : Message} (hm : .received m ∈ g.log)
    {x : Gateway × Option DownPoint} (hx : onDownstreamBitcoin g m a = .ok x) :
    DownFine decimal .btc p g₀ x := by
  rw [onDownstreamBitcoin] at hx
  split at hx
  · cases hx
    exact ⟨h, hg, fun _ h => by cases h⟩
  · split at hx
    · rename_i hauth
      cases hx
      refine ⟨h, hg, ?_⟩
      rintro q ⟨⟩
      exact isMethod_unique hauth (by decide)
    · split at hx
      · cases hx
        exact submit_fine h hg hm
      · rename_i hsubmit
        split at hx
        · exact dispatch_fine h hg none (eq_false_of_ne_true hsubmit) hx
        · cases hx
          exact DownFine.send h hg _

theorem receiveMonero_fine (h : Consistent decimal .xmr g)
    (hg : Grows (.downstream p) g₀.log g.log) {m : Message} (hm : .received m ∈ g.log)
    {x : Gateway × Option DownPoint} (hx : onDownstreamMonero g m a = .ok x) :
    DownFine decimal .xmr p g₀ x := by
  rw [onDownstreamMonero] at hx
  split at hx
  · rename_i hlogin
    cases hx
    refine ⟨h, hg, ?_⟩
    rintro q ⟨⟩
    exact isMethod_unique hlogin (by decide)
  · split at hx
    · cases hx
      exact submit_fine h hg hm
    · rename_i hsubmit
      split at hx
      · exact dispatch_fine h hg none (eq_false_of_ne_true hsubmit) hx
      · cases hx
        exact DownFine.send h hg _

theorem forwardLogin_fine (h : Consistent decimal kind g)
    (hg : Grows (.downstream p) g₀.log g.log) {m : Message}
    (hm : m.isMethod (submitMethod kind) = false) {x : Gateway × Option DownPoint}
    (hx : forwardLogin kind g a m = .ok x) : DownFine decimal kind p g₀ x := by
  rw [forwardLogin] at hx
  split at hx
  · cases hx
  · refine dispatch_fine h hg none ?_ hx
    cases kind <;> exact hm

theorem onDownstream_fine (h : Consistent decimal kind g) (hs : DownSound decimal kind g.log p)
    {x : Gateway × Option DownPoint} (hx : onDownstream decimal kind g p a = .ok x) :
    DownFine decimal kind p g x := by
  have hg := Grows.refl (.downstream p) g.log
  cases p with
  | receive m =>
    cases hx
    have ht : Consistent decimal kind (g.tell (.received m)) := h.tell trivial trivial
    have hg' : Grows (.downstream (.receive m)) g.log (g.tell (.received m)).log := hg.snoc trivial
    refine DownFine.settle ht hg' (fun x hx => ?_)
    have hm : .received m ∈ (g.tell (.received m)).log := by simp [Gateway.tell]
    cases kind with
    | btc => exact receiveBitcoin_fine ht hg' hm hx
    | xmr => exact receiveMonero_fine ht hg' hm hx
  | authenticate m =>
    simp only [onDownstream] at hx
    split at hx
    · cases hx
      have hsend : Consistent decimal kind (g.send (authorizationFailed kind m) none) :=
        h.send trivial
      refine ⟨hsend.close _, ?_, fun _ h => by cases h⟩
      simpa using grows_send (.downstream (.authenticate m)) (authorizationFailed kind m) none
    · cases hx
      refine ⟨h.keep (quiet_hold _), hg, ?_⟩
      rintro q ⟨⟩
      exact hs
  | authenticated m auth =>
    cases hx
    have hk : Consistent decimal kind (g.set { g.session with
        authorized := some auth, countedConnection := true,
        heartbeats := g.session.heartbeats + 1 }) :=
      h.keep (quiet_set rfl (List.Subset.refl _) rfl)
    exact DownFine.settle hk hg
      (fun x hx => ensureUpstream_fine hk hg (.authorize m auth) hs hx)
  | candidates after =>
    simp only [onDownstream] at hx
    split at hx
    · cases hx
    · cases hx
      refine ⟨h, hg, ?_⟩
      rintro q ⟨⟩
      exact hs
  | resolveGatewayProxy after upstream rest =>
    cases hx
    refine ⟨h, hg, ?_⟩
    rintro q ⟨⟩
    exact hs
  | connectUpstream after upstream rest =>
    cases hx
    refine ⟨h.keep (quiet_hold _), hg, ?_⟩
    rintro q ⟨⟩
    exact hs
  | connected after upstream rest socket =>
    cases hx
    refine ⟨h.keep (quiet_set rfl (List.Subset.refl _) rfl), hg, ?_⟩
    rintro q ⟨⟩
    exact hs
  | success after upstream rest =>
    cases hx
    refine ⟨h, hg, ?_⟩
    rintro q ⟨⟩
    exact hs
  | succeeded after =>
    cases hx
    exact DownFine.settle h hg (fun x hx => continueAfter_fine h hg after hs hx)
  | failure after upstream rest error =>
    simp only [onDownstream] at hx
    split at hx
    · cases hx
    · cases hx
      refine ⟨h, hg, ?_⟩
      rintro q ⟨⟩
      exact hs
  | createConnection m auth =>
    simp only [onDownstream, bind_eq_ok, orThrow_eq_ok, pure_eq_ok] at hx
    obtain ⟨connections, _, rfl⟩ := hx
    refine ⟨h.keep ⟨rfl, rfl, List.Subset.refl _, rfl, fun _ hr => hr⟩, hg, ?_⟩
    rintro q ⟨⟩
    exact hs
  | connectionCreated m auth id =>
    cases hx
    refine ⟨h.keep (quiet_set rfl (List.Subset.refl _) rfl), hg, ?_⟩
    rintro q ⟨⟩
    exact hs
  | updateWorker m =>
    cases hx
    refine ⟨h, hg, ?_⟩
    rintro q ⟨⟩
    exact hs
  | workerUpdated m =>
    cases hx
    exact DownFine.settle h hg (fun x hx => forwardLogin_fine h hg hs hx)
  | activePolicy s =>
    simp only [onDownstream, bind_eq_ok, orThrow_eq_ok, pure_eq_ok] at hx
    obtain ⟨policy, _, q, hq, rfl⟩ := hx
    refine ⟨h, hg, ?_⟩
    rintro q ⟨⟩
    exact ⟨hs, hq⟩
  | createShare s q policy =>
    simp only [onDownstream, bind_eq_ok, orThrow_eq_ok, pure_eq_ok] at hx
    obtain ⟨shares, hi, rfl⟩ := hx
    have hfresh := (stored_insert (g.store (withShares g.db shares)) hi).2.2
    refine ⟨h.journal hi hs.1 rfl ⟨q, hs.2, rfl, rfl⟩, hg.snoc trivial, ?_⟩
    rintro q ⟨⟩
    refine ⟨⟨s, _, List.mem_append_right _ (List.mem_singleton_self _), rfl, rfl⟩, ?_⟩
    rintro ⟨n, fm, p, reached, hf, hp⟩
    obtain hf | hf := List.mem_append.mp hf
    · -- what was forwarded had been journaled, and so is another row
      obtain ⟨l₁, l₂, hl, _, m, hown, _⟩ := h.justified.mem hf
      rw [hp] at hown
      obtain ⟨⟨s', e, he, hr, _⟩, _⟩ := hown
      exact hfresh (hr ▸ h.stored s' e (by rw [hl]; exact List.mem_append_left _ he))
    · cases List.mem_singleton.mp hf
  | shareCreated s share =>
    cases hx
    exact DownFine.settle h hg (fun x hx => dispatch_fine h hg (some share) hs hx)
  | protocolError error =>
    cases hx
    exact ⟨h.close _, by simpa using hg, fun _ h => by cases h⟩

end Downstream

section Upstream

variable {decimal : Decimal} {kind : AssetCode}

structure UpFine (decimal : Decimal) (kind : AssetCode) (socket : ℕ) (p : UpPoint) (g : Gateway)
    (x : Gateway × Option UpPoint) : Prop where
  consistent : Consistent decimal kind x.1
  grows : Grows (.upstream socket p) g.log x.1.log
  sound : ∀ q ∈ x.2, UpSound x.1.log socket q

variable {socket : ℕ} {p : UpPoint} {g : Gateway} {a : Reply}

theorem responseKey_eq {m : Message} (hm : m.hasMethod = false) :
    responseKey m = (m.id.filter (fun j => !j.isNull)).map Json.text := by
  simp [responseKey, hm]

/-- A message without a method: the pending request that it answers is its own. -/
theorem onResponse_fine (h : Consistent decimal kind g) {m : Message} (hm : m.hasMethod = false)
    {d : String} (hd : d = (announces kind m).getD g.session.difficulty) :
    UpFine decimal kind socket (.receive m) g (onResponse kind
      ((g.set { g.session with difficulty := d }).tell (.heard socket m)) m) := by
  have hkey := responseKey_eq hm
  have hg : Grows (.upstream socket (.receive m)) g.log (g.log ++ [.heard socket m]) :=
    (Grows.refl _ _).snoc trivial
  -- nothing is pending under the id of the message
  have hnone : (∀ e ∈ g.session.pending, responseKey m ≠ some e.1) →
      UpFine decimal kind socket (.receive m) g
        ((g.set { g.session with difficulty := d }).tell (.heard socket m), none) :=
    fun hp => ⟨h.hear rfl hd (fun e he => ⟨he, hp e he⟩), hg, fun _ h => by cases h⟩
  rw [onResponse]
  split
  · rename_i hid
    refine hnone (fun e _ => ?_)
    rw [hkey, hid]
    exact fun h => by cases h
  · rename_i id hid
    rw [hid, Option.map_some] at hkey
    split
    · rename_i hfind
      refine hnone (fun e he hk => ?_)
      rw [hkey] at hk
      have hne := List.find?_eq_none.mp hfind e he
      simp only [decide_eq_true_eq] at hne
      exact hne (Option.some.inj hk).symm
    · rename_i key rpc hfind
      have hk : key = id.text := by simpa using List.find?_some hfind
      have hmem : (key, rpc) ∈ g.session.pending := List.mem_of_find?_eq_some hfind
      obtain ⟨n, hn, hopen⟩ := h.pending _ hmem
      have hresp : responseKey m = some (toString n) := hkey.trans (congrArg some (hk ▸ hn))
      have ha : Answered n rpc socket m (g.log ++ [.heard socket m]) := hopen.answer hresp
      have hc : Consistent decimal kind ((g.set { g.session with
          difficulty := d
          pending := g.session.pending.filter (fun e => e.1 ≠ key) }).tell (.heard socket m)) := by
        refine h.hear rfl hd (fun e he => ?_)
        obtain ⟨he, hne⟩ := List.mem_filter.mp he
        refine ⟨he, fun hk' => ?_⟩
        rw [hkey, ← hk] at hk'
        simp only [decide_eq_true_eq] at hne
        exact hne (Option.some.inj hk').symm
      dsimp only
      split
      · rename_i share hshare
        refine ⟨hc, hg, ?_⟩
        rintro q ⟨⟩
        refine ⟨⟨n, ha⟩, hshare, ?_⟩
        -- a verdict before this response would have come from an earlier one
        rintro ⟨status, m', hx⟩
        obtain hx | hx := List.mem_append.mp hx
        · obtain ⟨l₁, l₂, hl, ⟨n', p', socket', ha', hp'⟩, _⟩ := h.justified.mem hx
          have ha'' : Answered n' p' socket' m' g.log := hl ▸ ha'.append _
          obtain ⟨_, _, hf⟩ := hopen.forwarded
          obtain ⟨_, _, hf'⟩ := ha''.forwarded
          obtain rfl := share_forwarded_once h.justified hf hshare hf' hp'
          exact hopen.not_answered h.justified ha''
        · cases List.mem_singleton.mp hx
      · rename_i hshare
        obtain ⟨hans, hgrow⟩ := hc.answered (m := m) (p := rpc)
          (fun r hr => by rw [hshare] at hr; cases hr) (.upstream socket (.receive m))
        exact ⟨hans, hg.trans hgrow, fun _ h => by cases h⟩

theorem onUpstream_fine (h : Consistent decimal kind g) (hs : UpSound g.log socket p)
    {x : Gateway × Option UpPoint} (hx : onUpstream kind socket g p a = .ok x) :
    UpFine decimal kind socket p g x := by
  cases p with
  | receive m =>
    simp only [onUpstream] at hx
    split at hx
    · rename_i hm
      have hk : Consistent decimal kind ((g.set { g.session with
          difficulty := (announces kind m).getD g.session.difficulty }).tell (.heard socket m)) :=
        h.hear rfl rfl (fun e he => ⟨he, by simp [responseKey, hm]⟩)
      have hg : Grows (.upstream socket (.receive m)) g.log (g.log ++ [.heard socket m]) :=
        (Grows.refl _ _).snoc trivial
      split at hx
      · cases hx
        exact ⟨hk.close _, by rw [close_log]; exact hg, fun _ h => by cases h⟩
      · cases hx
        exact ⟨hk.send trivial, hg.trans (grows_send _ _ _), fun _ h => by cases h⟩
    · rename_i hm
      cases hx
      exact onResponse_fine h (by simpa using hm) rfl
  | resolve m p share =>
    simp only [onUpstream, bind_eq_ok, pure_eq_ok] at hx
    obtain ⟨db, hr, rfl⟩ := hx
    refine ⟨h.resolve hs hr, (Grows.refl _ _).snoc ⟨socket, m, p, rfl⟩, ?_⟩
    rintro q ⟨⟩
    intro r hp
    obtain ⟨⟨n, ha⟩, hshare, _⟩ := hs
    obtain ⟨fm, reached, hf⟩ := ha.forwarded
    obtain rfl := Option.some.inj (hshare.symm.trans hp)
    exact ⟨⟨n, fm, reached, List.mem_append_left _ hf⟩, statusOf db share,
      List.mem_append_right _ (List.mem_singleton_self _)⟩
  | resolved m p =>
    cases hx
    obtain ⟨hans, hgrow⟩ := h.answered hs (.upstream socket (.resolved m p))
    exact ⟨hans, hgrow, fun _ h => by cases h⟩
  | protocolError error =>
    cases hx
    exact ⟨h.close _, by rw [close_log]; exact Grows.refl _ _, fun _ h => by cases h⟩

end Upstream

section Events

variable {g : Gateway}

theorem quiet_closeAt (point : ClosePoint) : Quiet g (g.closeAt point) :=
  quiet_set rfl (List.Subset.refl _) rfl

theorem quiet_closed : Quiet g (closed g) := quiet_set rfl (List.Subset.refl _) rfl

theorem quiet_closeLease : Quiet g (closeLease g) := by
  rw [closeLease]
  split
  · split <;> exact quiet_closeAt _
  · exact quiet_closeAt _

theorem quiet_closeSockets (code : String) : Quiet g (closeSockets g code) := by
  have hq : Quiet g ((g.set { g.session with downstreamDestroyed := true }).hold
      { g.resources with destroyed := g.resources.destroyed ++ g.session.upstream.toList }) :=
    ⟨rfl, rfl, List.Subset.refl _, rfl, fun _ hr => hr⟩
  rw [closeSockets]
  dsimp only
  split
  · exact hq.trans (quiet_closeAt _)
  · exact hq.trans quiet_closeLease

theorem unknown_stored (now : Instant) (shares : List ShareReference) (code : String)
    {r : ShareReference} (h : Stored g r) : Stored (g.store (Shares.unknown g.db now shares code)) r := by
  obtain ⟨f, hs, hrows, _⟩ := unknown_ok now code shares g.db
  obtain ⟨s, hm, rfl⟩ := h
  refine ⟨f s, ?_, ?_⟩
  · rw [show (g.store (Shares.unknown g.db now shares code)).db.shareEvents.rows =
      g.db.shareEvents.rows.map f from hrows]
    exact List.mem_map_of_mem hm
  · rw [referenceOf, (hs s).id, (hs s).submittedAt, referenceOf]

theorem quiet_closeStep (took : Bool) (now : Instant) : Quiet g (closeStep g took now) := by
  rw [closeStep]
  dsimp only
  split
  · exact Quiet.refl g
  · refine Quiet.trans ?_ (quiet_closeAt _)
    split
    · exact quiet_store (fun _ hr => unknown_stored now _ _ hr)
    · exact Quiet.refl g
  · rename_i code _
    have hq : Quiet g (g.set { g.session with pending := [] }) :=
      quiet_set rfl (List.nil_subset _) rfl
    split
    · exact hq.trans (quiet_closeAt _)
    · exact hq.trans (quiet_closeSockets _)
  · exact quiet_closeSockets _
  · refine Quiet.trans ?_ quiet_closeLease
    split
    · exact quiet_hold _
    · exact Quiet.refl g
  · split
    · exact (quiet_hold _).trans (quiet_closeAt _)
    · exact quiet_closed
  · split
    · exact quiet_closeAt _
    · exact quiet_closed
  · refine Quiet.trans ?_ quiet_closed
    split
    · exact quiet_hold _
    · exact Quiet.refl g
  · exact Quiet.refl g

theorem quiet_event (e : Event) : Quiet g (event g e) := by
  cases e with
  | close code => exact quiet_close code
  | closeStep took now => exact quiet_closeStep took now
  | downstreamClosed =>
    simp only [event]
    refine Quiet.trans ?_ (quiet_close _)
    exact quiet_set rfl (List.Subset.refl _) rfl
  | upstreamClosed socket code =>
    simp only [event]
    split
    · exact (quiet_hold _).trans (quiet_close _)
    · exact Quiet.refl g
  | renew =>
    simp only [event]
    split
    · exact Quiet.refl g
    · split
      · exact quiet_hold _
      · exact quiet_close _
  | leaseExpires lease => exact quiet_hold _
  | leaseElsewhere lease =>
    simp only [event]
    split
    · exact Quiet.refl g
    · exact quiet_hold _
  | rewriteShares f hf =>
    have hs : (event g (.rewriteShares f hf)).db.shareEvents =
        g.db.shareEvents.update (fun _ => true) f hf := rfl
    exact quiet_store (fun _ hr => stored_update hs hr)
  | insertShare share =>
    simp only [event]
    split
    · rename_i shares hi
      exact quiet_store (stored_insert (g.store (withShares g.db shares)) hi).2.1
    · exact Quiet.refl g
  | policies t => exact quiet_store (fun _ hr => hr)

end Events

section Runs

variable {decimal : Decimal} {kind : AssetCode}

theorem keyed (decimal : Decimal) (kind : AssetCode) : Keyed (gateway decimal kind) queue where
  effect g r a g' r' h := by
    cases r with
    | downstream p =>
      obtain ⟨x, _, he⟩ := map_eq_ok.mp h
      obtain ⟨q, _, rfl⟩ := Option.map_eq_some_iff.mp (Prod.mk.inj he).2
      rfl
    | upstream socket p =>
      obtain ⟨x, _, he⟩ := map_eq_ok.mp h
      obtain ⟨q, _, rfl⟩ := Option.map_eq_some_iff.mp (Prod.mk.inj he).2
      rfl
  handler r e r' h := by
    cases r with
    | downstream p =>
      obtain ⟨q, _, rfl⟩ := Option.map_eq_some_iff.mp h
      rfl
    | upstream socket p =>
      obtain ⟨q, _, rfl⟩ := Option.map_eq_some_iff.mp h
      rfl
  background _ _ _ := rfl

theorem effect_fine {g g' : Gateway} {r : Call} {a : Reply} {o : Option Call}
    (h : Consistent decimal kind g) (hs : Sound decimal kind g r)
    (he : effect decimal kind g r a = .ok (g', o)) :
    Consistent decimal kind g' ∧ Grows r g.log g'.log ∧ ∀ r' ∈ o, Sound decimal kind g' r' := by
  cases r with
  | downstream p =>
    obtain ⟨x, hx, he⟩ := map_eq_ok.mp he
    cases he
    have hf := onDownstream_fine h hs hx
    refine ⟨hf.consistent, hf.grows, fun r' hr' => ?_⟩
    obtain ⟨q, hq, rfl⟩ := Option.map_eq_some_iff.mp hr'
    exact hf.sound q hq
  | upstream socket p =>
    obtain ⟨x, hx, he⟩ := map_eq_ok.mp he
    cases he
    have hf := onUpstream_fine h hs hx
    refine ⟨hf.consistent, hf.grows, fun r' hr' => ?_⟩
    obtain ⟨q, hq, rfl⟩ := Option.map_eq_some_iff.mp hr'
    exact hf.sound q hq

/-- What is left to run after a throw needs no more than the call had. -/
theorem handler_sound {g g' : Gateway} {r r' : Call} {e : String} (hs : Sound decimal kind g r)
    (hl : (∃ a o, effect decimal kind g r a = .ok (g', o)) ∨ g' = g)
    (hr : handler r e = some r') : Sound decimal kind g' r' := by
  cases r with
  | upstream socket p =>
    obtain ⟨q, hq, rfl⟩ := Option.map_eq_some_iff.mp hr
    cases p <;> cases hq <;> trivial
  | downstream p =>
    obtain ⟨q, hq, rfl⟩ := Option.map_eq_some_iff.mp hr
    -- a throw inside the loop leaves the log as it was
    have hfail : ∀ after upstream rest error, q = .failure after upstream rest error →
        After.Sound kind g.log after → Sound decimal kind g' (.downstream q) := by
      rintro after upstream rest error rfl hafter
      show After.Sound kind g'.log after
      obtain ⟨a, o, he⟩ | rfl := hl
      · obtain ⟨x, hx, he⟩ := map_eq_ok.mp he
        cases p <;> cases hq <;> cases hx <;> cases he <;> exact hafter
      · exact hafter
    cases p with
    | resolveGatewayProxy | connectUpstream | connected | success =>
      exact hfail _ _ _ _ (Option.some.inj hq).symm hs
    | protocolError => cases hq
    | _ =>
      cases hq
      trivial

theorem outline (decimal : Decimal) (kind : AssetCode) :
    Outline (gateway decimal kind) queue (fun _ _ _ => True) (fun _ _ => True)
      (Consistent decimal kind) (Sound decimal kind)
      (fun r g g' => Sound decimal kind g r ∧ Grows r g.log g'.log) where
  entry g r _ hr := by
    cases r with
    | downstream p => cases p <;> trivial
    | upstream socket p => cases p <;> trivial
  effect g r a g' o h hs _ he := by
    obtain ⟨hc, hg, ho⟩ := effect_fine h hs he
    exact ⟨hc, ⟨hs, hg⟩, ho, fun e r' hr' => handler_sound hs (.inl ⟨a, o, he⟩) hr'⟩
  handler g r e r' _ hs hr := handler_sound hs (.inr rfl) hr
  background _ _ _ _ hs := hs
  event g e h _ := by
    have hq : Quiet g (event g e) := quiet_event e
    refine ⟨h.keep hq, fun r hs => ?_⟩
    cases r with
    | downstream p =>
      show DownSound decimal kind (event g e).log p
      rw [hq.log]
      exact hs
    | upstream socket p =>
      show UpSound (event g e).log socket p
      rw [hq.log]
      exact hs
  stable g g' r r' h hg hap hs := by
    obtain ⟨hr, new, hnew, hmakes⟩ := hg
    have hdiff : ∀ s : Call, queue s = queue r' → r ≠ s := by
      rintro s hq rfl
      obtain hn | hn := hap
      · cases r <;> cases hn
      · exact hn hq.symm
    cases r' with
    | downstream p =>
      show DownSound decimal kind g'.log p
      rw [hnew]
      exact DownSound.grow hs hmakes (fun q => hdiff _ rfl)
    | upstream socket p =>
      show UpSound g'.log socket p
      rw [hnew]
      exact UpSound.grow h.justified rfl hs hr hmakes (fun q => hdiff _ rfl)

theorem consistent_fresh {g : Gateway} (h : g.Fresh) : Consistent decimal kind g where
  justified := by
    rw [h.log]
    exact justified_nil _
  numbers n m p reached hm := by
    rw [h.log] at hm
    cases hm
  pending e he := by
    rw [h.session] at he
    cases he
  stored s share hm := by
    rw [h.log] at hm
    cases hm
  difficulty := by
    rw [h.session, h.log]
    rfl

/-- The steps of a session: messages, answers and outside events in any order,
except that each peer handles its messages one after the other. -/
def Steps : Config Gateway Call → Action Call Reply Event → Prop :=
  Allowed queue (fun _ _ _ => True) (fun _ _ => True)

theorem run_consistent {g : Gateway} (hg : g.Fresh) {c : Config Gateway Call}
    (h : (gateway decimal kind).Run Steps (.idle g) c) : Consistent decimal kind c.shared :=
  ((outline decimal kind).run (keyed decimal kind) (Outline.idle (consistent_fresh hg)) h).inv

theorem execAlone_sample {β : Type} (kind : AssetCode) (acts : List (Action Call Reply Event))
    (f : Config Gateway Call → β) (v : β)
    (h : ((gateway sampleDecimal kind).execAlone (fun _ _ _ => true) (.idle (sampleGateway kind))
      acts).map f = some v) :
    ∃ c, (gateway sampleDecimal kind).Run Steps (.idle (sampleGateway kind)) c ∧ f c = v := by
  obtain ⟨c, hc, hf⟩ := Option.map_eq_some_iff.mp h
  exact ⟨c, (Machine.execAlone_run queue (fun _ _ _ _ => trivial) (fun _ _ => rfl) hc).1, hf⟩

end Runs

end Bitmine.SessionHistory
