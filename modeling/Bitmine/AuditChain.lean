import Bitmine.AuditEvents
import Bitmine.Lib.Await

namespace Bitmine.AuditChain

open Bitmine.Lib.Await Bitmine.Lib.CanonicalTree Bitmine.Schema Bitmine.AuditEvents

/-- The platform and the database: how keys are compared, the digest, and what a
JSON column gives back of the value written to it. -/
structure Backend where
  localeCompare : String → String → Ordering
  sha256 : String → String
  jsonb : Json → Json

/-- Keys are totally ordered, digests do not collide, and JSON columns preserve
values up to the order of members. -/
structure Backend.Sound (b : Backend) : Prop where
  trans : Std.TransCmp b.localeCompare
  lawful : Std.LawfulEqCmp b.localeCompare
  injective : Function.Injective b.sha256
  jsonb : ∀ j, Reorder (b.jsonb j).1 j.1

structure AuditEvent extends Content where
  id : Id
  sequence : ℕ
  previousHash : Option String
  eventHash : String

structure AuditInput where
  actorId : Option Id
  action : String
  entityType : String
  entityId : Option String
  ipAddress : Option String
  before : Value
  after : Value

variable (b : Backend)

def hashOf (c : Content) (previousHash : Option String) : String :=
  b.sha256 (canonical b.localeCompare (payload c previousHash))

def contentOf (input : AuditInput) (createdAt : Instant) : Content :=
  ⟨input.actorId, input.action, input.entityType, input.entityId, input.ipAddress,
    column input.before, column input.after, createdAt⟩

def stored (c : Content) : Content := { c with before := b.jsonb c.before, after := b.jsonb c.after }

/-- The committed events, the sequence of the table, the advisory lock with the
number of its present tenure, and the event its holder has inserted. -/
structure Log where
  events : List AuditEvent
  nextSequence : ℕ
  nextTenure : ℕ
  lock : Option ℕ
  pending : Option AuditEvent

def Log.empty : Log := ⟨[], 1, 0, none, none⟩

def bySequence (events : List AuditEvent) : List AuditEvent :=
  events.insertionSort (fun e f => e.sequence ≤ f.sequence)

def lastHash (events : List AuditEvent) : Option String :=
  (bySequence events).getLast?.map AuditEvent.eventHash

/-- The awaited statements of `record`. -/
inductive RecordCall where
  | record (input : AuditInput)
  | findFirst (tenure : ℕ) (input : AuditInput)
  | create (tenure : ℕ) (content : Content) (previousHash : Option String)
  | commit (tenure : ℕ)
  | rollback (tenure : ℕ)

def RecordCall.entry : RecordCall → Bool
  | .record _ => true
  | _ => false

structure Answer where
  now : Instant
  id : Id

def closed : String := "Transaction already closed"

def Log.release (s : Log) : Log := { s with lock := none, pending := none }

def effect (s : Log) (r : RecordCall) (a : Answer) : Except String (Log × Option RecordCall) :=
  match r with
  | .record input =>
    match s.lock with
    | none => .ok ({ s with lock := some s.nextTenure, nextTenure := s.nextTenure + 1 },
        some (.findFirst s.nextTenure input))
    -- the statement waits for the lock
    | some _ => .ok (s, some (.record input))
  | .findFirst tenure input =>
    if s.lock = some tenure then
      .ok (s, some (.create tenure (contentOf input a.now) (lastHash s.events)))
    else .error closed
  | .create tenure content previousHash =>
    if s.lock = some tenure then
      .ok ({ s with
        nextSequence := s.nextSequence + 1
        pending := some ⟨stored b content, a.id, s.nextSequence, previousHash,
          hashOf b content previousHash⟩ }, some (.commit tenure))
    else .error closed
  | .commit tenure =>
    if s.lock = some tenure then
      .ok ({ s with events := s.events ++ s.pending.toList }.release, none)
    else .error closed
  | .rollback tenure => .ok (if s.lock = some tenure then s.release else s, none)

def handler (r : RecordCall) (_ : String) : Option RecordCall :=
  match r with
  | .record _ | .rollback _ => none
  | .findFirst tenure _ | .create tenure _ _ | .commit tenure => some (.rollback tenure)

def recorder : Machine Log RecordCall Answer Unit :=
  ⟨RecordCall.entry, effect b, handler, fun _ r _ => r, fun s _ => s.release⟩

structure Report where
  valid : Bool
  checked : ℕ
  brokenEventId : Option Id

def verifyFrom (index : ℕ) (previousHash : Option String) : List AuditEvent → Report
  | [] => ⟨true, index, none⟩
  | e :: events =>
    if e.previousHash ≠ previousHash ∨ e.eventHash ≠ hashOf b e.toContent previousHash then
      ⟨false, index, some e.id⟩
    else verifyFrom (index + 1) (some e.eventHash) events

def verify (events : List AuditEvent) : Report := verifyFrom b 0 none (bySequence events)

/-- One stored event is changed in its hashed columns, in its link or in its digest. -/
inductive Tampered (e : AuditEvent) : AuditEvent → Prop
  | content (c : Content) : ¬ e.toContent.Same c → Tampered e { e with toContent := c }
  | previousHash (p : Option String) : p ≠ e.previousHash → Tampered e { e with previousHash := p }
  | eventHash (h : String) : h ≠ e.eventHash → Tampered e { e with eventHash := h }

section Hashes

variable {b} {c d : Content} {p q : Option String}

theorem hashOf_inj (hb : b.Sound) : hashOf b c p = hashOf b d q ↔ c.Same d ∧ p = q := by
  have htrans : Std.TransCmp b.localeCompare := hb.trans
  have hlawful : Std.LawfulEqCmp b.localeCompare := hb.lawful
  rw [hashOf, hashOf, hb.injective.eq_iff]
  exact canonical_payload

theorem hashOf_stored (hb : b.Sound) : hashOf b c p = hashOf b (stored b c) p :=
  (hashOf_inj hb).mpr ⟨⟨rfl, rfl, rfl, rfl, rfl, (hb.jsonb c.before).symm, (hb.jsonb c.after).symm, rfl⟩,
    rfl⟩

end Hashes

section Links

variable {b} {events before after : List AuditEvent} {e e' : AuditEvent} {p : Option String}

def Links (b : Backend) (p : Option String) : List AuditEvent → Prop
  | [] => True
  | e :: events =>
    e.previousHash = p ∧ e.eventHash = hashOf b e.toContent p ∧ Links b (some e.eventHash) events

def tip (p : Option String) (events : List AuditEvent) : Option String :=
  events.foldl (fun _ e => some e.eventHash) p

theorem links_append : Links b p (before ++ after) ↔
    Links b p before ∧ Links b (tip p before) after := by
  induction before generalizing p with
  | nil => simp [Links, tip]
  | cons e before ih =>
    rw [List.cons_append, Links, Links, ih]
    simp only [tip, List.foldl_cons, and_assoc]

theorem tip_none (events : List AuditEvent) :
    tip none events = events.getLast?.map AuditEvent.eventHash := by
  induction events using List.reverseRecOn with
  | nil => rfl
  | append_singleton events e _ => simp [tip]

theorem verifyFrom_append {index : ℕ} (h : Links b p before) :
    verifyFrom b index p (before ++ after) =
      verifyFrom b (index + before.length) (tip p before) after := by
  induction before generalizing index p with
  | nil => rfl
  | cons e before ih =>
    obtain ⟨hprev, hhash, hrest⟩ := h
    have hok : ¬ (e.previousHash ≠ p ∨ e.eventHash ≠ hashOf b e.toContent p) := by
      rintro (hne | hne)
      · exact hne hprev
      · exact hne hhash
    rw [List.cons_append, verifyFrom, if_neg hok, ih hrest, List.length_cons, Nat.add_assoc,
      Nat.add_comm 1]
    rfl

theorem verifyFrom_links {index : ℕ} (h : Links b p events) :
    verifyFrom b index p events = ⟨true, index + events.length, none⟩ := by
  have happend : verifyFrom b index p (events ++ []) = _ := verifyFrom_append h
  rw [List.append_nil] at happend
  rw [happend, verifyFrom]

theorem Tampered.broken (hb : b.Sound) (ht : Tampered e e') (hprev : e.previousHash = p)
    (hhash : e.eventHash = hashOf b e.toContent p) :
    e'.previousHash ≠ p ∨ e'.eventHash ≠ hashOf b e'.toContent p := by
  cases ht with
  | content c hne =>
    refine .inr (fun he => hne ?_)
    rw [hhash] at he
    exact ((hashOf_inj hb).mp he).1
  | previousHash q hne => exact .inl (fun he => hne (he.trans hprev.symm))
  | eventHash h hne => exact .inr (fun he => hne (he.trans hhash.symm))

theorem Tampered.id_eq (ht : Tampered e e') : e'.id = e.id := by
  cases ht <;> rfl

theorem Tampered.sequence_eq (ht : Tampered e e') : e'.sequence = e.sequence := by
  cases ht <;> rfl

theorem verifyFrom_tampered (hb : b.Sound) {index : ℕ} (h : Links b p (before ++ e :: after))
    (ht : Tampered e e') : verifyFrom b index p (before ++ e' :: after) =
      ⟨false, index + before.length, some e.id⟩ := by
  obtain ⟨hbefore, hprev, hhash, _⟩ := links_append.mp h
  rw [verifyFrom_append hbefore, verifyFrom, if_pos (ht.broken hb hprev hhash), ht.id_eq]

def Ascending (events : List AuditEvent) : Prop :=
  events.Pairwise (fun e f => e.sequence < f.sequence)

theorem bySequence_eq (h : Ascending events) : bySequence events = events :=
  List.Pairwise.insertionSort_eq (h.imp (fun hlt => le_of_lt hlt))

theorem lastHash_eq (h : Ascending events) : lastHash events = tip none events := by
  rw [lastHash, bySequence_eq h, tip_none]

theorem Ascending.tampered (h : Ascending (before ++ e :: after)) (ht : Tampered e e') :
    Ascending (before ++ e' :: after) := by
  simpa only [Ascending, List.pairwise_append, List.pairwise_cons, List.mem_cons, forall_eq_or_imp,
    ht.sequence_eq] using h

end Links

/-- The event fits behind the committed ones. -/
structure Fits (b : Backend) (s : Log) (e : AuditEvent) : Prop where
  previousHash : e.previousHash = tip none s.events
  eventHash : e.eventHash = hashOf b e.toContent (tip none s.events)
  after : ∀ f ∈ s.events, f.sequence < e.sequence
  drawn : e.sequence < s.nextSequence

structure Chained (b : Backend) (s : Log) : Prop where
  links : Links b none s.events
  ascending : Ascending s.events
  drawn : ∀ e ∈ s.events, e.sequence < s.nextSequence
  pending : ∀ e ∈ s.pending, Fits b s e
  tenure : ∀ t ∈ s.lock, t < s.nextTenure

/-- A tenure of the lock never comes back, and during it no event is added but
by its holder. -/
def Loc (s : Log) : RecordCall → Prop
  | .record _ => True
  | .findFirst tenure _ | .commit tenure | .rollback tenure => tenure < s.nextTenure
  | .create tenure _ previousHash => tenure < s.nextTenure ∧
    (s.lock = some tenure → previousHash = tip none s.events)

section Steps

variable {b} {s s' : Log}

theorem Chained.release (h : Chained b s) : Chained b s.release :=
  ⟨h.links, h.ascending, h.drawn, fun _ he => (by cases he), fun _ ht => (by cases ht)⟩

theorem Chained.append {e : AuditEvent} (h : Chained b s) (he : Fits b s e) :
    Chained b { s with events := s.events ++ [e] }.release where
  links := links_append.mpr ⟨h.links, he.previousHash, he.eventHash, trivial⟩
  ascending := List.pairwise_append.mpr ⟨h.ascending, List.pairwise_singleton _ _, fun f hf g hg => by
    rw [List.mem_singleton.mp hg]
    exact he.after f hf⟩
  drawn f hf := by
    obtain hf | hf := List.mem_append.mp hf
    · exact h.drawn f hf
    · rw [List.mem_singleton.mp hf]
      exact he.drawn
  pending _ hp := by cases hp
  tenure _ ht := by cases ht

theorem Chained.commit (h : Chained b s) :
    Chained b { s with events := s.events ++ s.pending.toList }.release := by
  cases hp : s.pending with
  | none =>
    rw [Option.toList_none, List.append_nil]
    exact h.release
  | some e =>
    rw [Option.toList_some]
    exact h.append (h.pending e hp)

theorem Loc.mono {r : RecordCall} (hl : Loc s r) (hnext : s.nextTenure ≤ s'.nextTenure)
    (hlock : ∀ t < s.nextTenure, s'.lock = some t → s.lock = some t ∧ s'.events = s.events) :
    Loc s' r := by
  cases r with
  | record => trivial
  | findFirst t | commit t | rollback t => exact lt_of_lt_of_le hl hnext
  | create t content p =>
    refine ⟨lt_of_lt_of_le hl.1 hnext, fun ht => ?_⟩
    obtain ⟨hold, hevents⟩ := hlock t hl.1 ht
    rw [hevents]
    exact hl.2 hold

theorem effect_chained (hb : b.Sound) {r : RecordCall} {a : Answer} {o : Option RecordCall}
    (h : Chained b s) (hl : Loc s r) (he : effect b s r a = .ok (s', o)) :
    Chained b s' ∧ (∀ r' ∈ o, Loc s' r') ∧ s.nextTenure ≤ s'.nextTenure ∧
      ∀ t < s.nextTenure, s'.lock = some t → s.lock = some t ∧ s'.events = s.events := by
  cases r with
  | record input =>
    simp only [effect] at he
    split at he
    · cases he
      refine ⟨⟨h.links, h.ascending, h.drawn, fun e hp => ?_, fun t ht => ?_⟩, ?_, Nat.le_succ _, ?_⟩
      · obtain ⟨hp1, hp2, hp3, hp4⟩ := h.pending e hp
        exact ⟨hp1, hp2, hp3, hp4⟩
      · cases ht
        exact Nat.lt_succ_self _
      · rintro _ ⟨⟩
        exact Nat.lt_succ_self _
      · intro t hlt ht
        have hsame : s.nextTenure = t := Option.some.inj ht
        omega
    · cases he
      exact ⟨h, fun r' hr' => (by cases hr'; trivial), le_rfl, fun t _ ht => ⟨ht, rfl⟩⟩
  | findFirst tenure input =>
    simp only [effect] at he
    split at he
    · cases he
      refine ⟨h, ?_, le_rfl, fun t _ ht => ⟨ht, rfl⟩⟩
      rintro _ ⟨⟩
      exact ⟨hl, fun _ => lastHash_eq h.ascending⟩
    · cases he
  | create tenure content previousHash =>
    simp only [effect] at he
    split at he
    · rename_i hlock
      cases he
      refine ⟨⟨h.links, h.ascending, fun e hm => Nat.lt_succ_of_lt (h.drawn e hm), ?_, h.tenure⟩, ?_,
        le_rfl, fun t _ ht => ⟨ht, rfl⟩⟩
      · rintro _ ⟨⟩
        have hlink := hl.2 hlock
        refine ⟨hlink, ?_, h.drawn, Nat.lt_succ_self _⟩
        rw [← hlink]
        exact hashOf_stored hb
      · rintro _ ⟨⟩
        exact hl.1
    · cases he
  | commit tenure =>
    simp only [effect] at he
    split at he
    · cases he
      exact ⟨h.commit, fun r' hr' => (by cases hr'), le_rfl, fun t _ ht => (by cases ht)⟩
    · cases he
  | rollback tenure =>
    simp only [effect] at he
    cases he
    refine ⟨?_, fun r' hr' => (by cases hr'), ?_, ?_⟩
    · split
      · exact h.release
      · exact h
    · split <;> exact le_rfl
    · split
      · exact fun t _ ht => (by cases ht)
      · exact fun t _ ht => ⟨ht, rfl⟩

end Steps

section Runs

variable {b}

theorem handler_tenure {s : Log} {r r' : RecordCall} (e : String) (hl : Loc s r)
    (hr' : handler r e = some r') : Loc s r' := by
  cases r with
  | record | rollback => cases hr'
  | findFirst | commit =>
    cases hr'
    exact hl
  | create =>
    cases hr'
    exact hl.1

theorem annotated (hb : b.Sound) : Annotation (recorder b) (fun _ _ => True) (fun _ _ _ => True)
    (fun _ _ => True) (Chained b) Loc where
  entry s r _ he _ := by
    cases r with
    | record => trivial
    | findFirst | create | commit | rollback => cases he
  effect s r a s' o h hl _ he := by
    obtain ⟨hc, ho, hnext, hlock⟩ := effect_chained hb h hl he
    exact ⟨hc, ho, fun e _ hr' => handler_tenure e (hl.mono hnext hlock) hr',
      fun _ hr' => hr'.mono hnext hlock⟩
  handler s r e r' _ hl hr' := handler_tenure e hl hr'
  background s r _ _ hl := hl
  event s _ h _ := ⟨h.release, fun _ hl => hl.mono le_rfl (fun t _ ht => (by cases ht))⟩

theorem chained_of_reaches (hb : b.Sound) {c : Config Log RecordCall}
    (h : (recorder b).Reaches (.idle .empty) c) : Chained b c.shared := by
  have hstart : Chained b .empty :=
    ⟨trivial, .nil, fun _ he => (by cases he), fun _ he => (by cases he), fun _ ht => (by cases ht)⟩
  refine ((annotated hb).run hstart (h.mono (fun c act _ => ?_))).1
  cases act <;> simp [Admits]

/-- Whatever is recorded, and in whatever order the callers get the lock, the
chain verifies; and a change of one stored event is found at that event. -/
theorem audit_chain_tamper_evident (hb : b.Sound) {c : Config Log RecordCall}
    (h : (recorder b).Reaches (.idle .empty) c) :
    verify b c.shared.events = ⟨true, c.shared.events.length, none⟩ ∧
    ∀ before e after e', c.shared.events = before ++ e :: after → Tampered e e' →
      verify b (before ++ e' :: after) = ⟨false, before.length, some e.id⟩ := by
  obtain ⟨hlinks, hasc, _⟩ := chained_of_reaches hb h
  constructor
  · rw [verify, bySequence_eq hasc, verifyFrom_links hlinks, Nat.zero_add]
  · intro before e after e' hevents ht
    rw [hevents] at hlinks hasc
    rw [verify, bySequence_eq (hasc.tampered ht), verifyFrom_tampered hb hlinks ht, Nat.zero_add]

end Runs

section Sample

def jsonbCompare (k l : String) : Ordering :=
  (compare k.utf8ByteSize l.utf8ByteSize).then (compare k l)

def sampleJsonb (j : Json) : Json :=
  match j with
  | ⟨.obj members, h⟩ =>
    ⟨.obj (sortByKey jsonbCompare members), (Reorder.perm (sortByKey_perm members).symm).wellFormed h⟩
  | j => j

def sampleBackend : Backend := ⟨compare, id, sampleJsonb⟩

theorem sampleBackend_sound : sampleBackend.Sound where
  trans := inferInstanceAs (Std.TransOrd String)
  lawful := inferInstanceAs (Std.LawfulEqOrd String)
  injective := Function.injective_id
  jsonb j := by
    obtain ⟨t, ht⟩ := j
    cases t with
    | leaf | arr => exact .refl _
    | obj members => exact .perm (sortByKey_perm members)

def sampleAbsent : Value := ⟨.leaf .undefined, .leaf trivial⟩

def sampleAfter : Value :=
  ⟨.obj [("slug", .leaf (.str "rig")), ("id", .leaf (.bigint 2)), ("since", .leaf (.date (some 0))),
    ("gone", .leaf .undefined)], by
    refine .obj (by decide) (fun m hm => ?_)
    simp only [List.mem_cons, List.not_mem_nil, or_false] at hm
    obtain rfl | rfl | rfl | rfl := hm <;> exact .leaf trivial⟩

def sampleFirst : AuditInput := ⟨some 1, "FIRST", "Customer", some "2", none, sampleAbsent, sampleAfter⟩

def sampleSecond : AuditInput := ⟨none, "SECOND", "Worker", none, none, sampleAbsent, sampleAbsent⟩

def sampleSchedule : List (Action RecordCall Answer Unit) :=
  [.call 0 (.record sampleFirst), .call 1 (.record sampleSecond), .resolve 0 ⟨0, 0⟩,
    .resolve 1 ⟨0, 0⟩, .resolve 0 ⟨1000, 0⟩, .resolve 0 ⟨0, 7⟩, .resolve 1 ⟨0, 0⟩, .resolve 0 ⟨0, 0⟩,
    .resolve 1 ⟨0, 0⟩, .resolve 1 ⟨2000, 0⟩, .resolve 1 ⟨0, 8⟩, .resolve 1 ⟨0, 0⟩]

theorem audit_chain_tamper_evident_sample : ∃ c e f,
    (recorder sampleBackend).Reaches (.idle .empty) c ∧ c.shared.events = [e, f] ∧ e.id = 7 ∧
    verify sampleBackend [e, f] = ⟨true, 2, none⟩ ∧
    verify sampleBackend [{ e with action := "TAMPERED" }, f] = ⟨false, 0, some 7⟩ := by
  have hexec : ((recorder sampleBackend).exec (.idle .empty) sampleSchedule).map
      (fun c => c.shared.events.map (fun e => (e.id, e.action))) = some [(7, "FIRST"), (8, "SECOND")] := by
    decide +kernel
  obtain ⟨c, hc, hv⟩ := Option.map_eq_some_iff.mp hexec
  have hrun := Machine.exec_reaches hc
  obtain ⟨hvalid, htampered⟩ := audit_chain_tamper_evident sampleBackend_sound hrun
  obtain ⟨e, rest, hcons, he, hrest⟩ := List.map_eq_cons_iff.mp hv
  obtain ⟨f, _, rfl, _, hnil⟩ := List.map_eq_cons_iff.mp hrest
  obtain rfl := List.map_eq_nil_iff.mp hnil
  obtain ⟨hid, haction⟩ := Prod.mk.inj he
  rw [hcons] at hvalid
  refine ⟨c, e, f, hrun, hcons, hid, hvalid, ?_⟩
  have hchange : Tampered e { e with action := "TAMPERED" } :=
    .content { e.toContent with action := "TAMPERED" } (fun hsame => by
      have ha : e.action = "TAMPERED" := hsame.action
      rw [haction] at ha
      exact absurd ha (by decide))
  rw [← hid]
  exact htampered [] e [f] _ hcons hchange

end Sample

end Bitmine.AuditChain
