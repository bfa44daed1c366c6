import Bitmine.Lib.PromiseChain
import Bitmine.Lib.JsonText
import Bitmine.Security

namespace Bitmine.RpcClient

open Bitmine.Lib.PromiseChain Bitmine.Lib.JsonText Bitmine.Security

structure RpcError where
  message : String
  code : Option ℤ := none
  data : Option Json := none

/-- What a caller asks of `call`. -/
structure Asked where
  method : String
  params : Json

structure Request where
  id : ℕ
  method : String
  params : Json
  authorization : Option String

structure Response where
  status : ℕ
  statusText : String
  wwwAuthenticate : Option String

def Response.ok (r : Response) : Bool := 200 ≤ r.status ∧ r.status ≤ 299

structure PayloadError where
  code : Option ℤ
  message : Option String
  data : Option Json

structure Payload where
  result : Option Json
  error : Option PayloadError

/-- What an await of `callOnce` brings: an error, or whatever it waited for. -/
structure Outcome where
  rejected : Option String := none
  response : Response := ⟨200, "OK", none⟩
  cnonce : String := ""
  payload : Payload := ⟨none, none⟩

section Challenge

/-- Letters and signs of attribute names; the comparison knows two more letters
whose case folds to an ASCII one. -/
def isLetter (c : Char) : Bool := c.isAlpha || c = 'ſ' || c = '\u212a'

def isNameChar (c : Char) : Bool := isLetter c || c.isDigit || c = '_' || c = '-'

def isBare (c : Char) : Bool := c ≠ ',' ∧ isSpace c = false

def sameLetter (lower c : Char) : Bool := c.toLower = lower ∨ (lower = 's' ∧ c = 'ſ')

/-- What follows the word `Digest` and the blanks behind it. -/
def afterDigest (cs : List Char) : Option (List Char) :=
  if cs.take 6 ≠ [] ∧ 6 ≤ cs.length ∧ (List.zipWith sameLetter "digest".toList cs).all id then
    match cs.drop 6 with
    | c :: rest => if isSpace c then some (rest.dropWhile isSpace) else none
    | [] => none
  else none

def firstChallenge : List Char → List Char
  | [] => []
  | c :: cs =>
    if c = ',' ∧ (afterDigest (cs.dropWhile isSpace)).isSome then [] else c :: firstChallenge cs

def bareAttribute (name rest : List Char) : Option ((List Char × List Char) × List Char) :=
  if rest.takeWhile isBare = [] then none
  else some ((name, rest.takeWhile isBare), rest.dropWhile isBare)

def attributeAt (cs : List Char) : Option ((List Char × List Char) × List Char) :=
  if cs.head?.any isLetter then
    match cs.dropWhile isNameChar with
    | '=' :: '"' :: rest =>
      if '"' ∈ rest then
        some ((cs.takeWhile isNameChar, rest.takeWhile (· ≠ '"')), (rest.dropWhile (· ≠ '"')).drop 1)
      else bareAttribute (cs.takeWhile isNameChar) ('"' :: rest)
    | '=' :: rest => bareAttribute (cs.takeWhile isNameChar) rest
    | _ => none
  else none

def attributes : ℕ → List Char → List (List Char × List Char)
  | fuel + 1, c :: cs =>
    match attributeAt (c :: cs) with
    | some (pair, rest) => pair :: attributes fuel rest
    | none => attributes fuel cs
  | _, _ => []

abbrev Challenge : Type := List (String × String)

def Challenge.get (challenge : Challenge) (name : String) : Option String :=
  (challenge.reverse.find? (fun e => e.1 = name)).map Prod.snd

structure Digest where
  username : Option String
  password : Option (Except String String)
  uri : String
  md5 : String → String
  toLowerCase : String → String
  toUpperCase : String → String

def Digest.hasCredentials (digest : Digest) : Bool :=
  (truthy digest.username).isSome && digest.password.isSome

def parseDigestChallenge (digest : Digest) (header : String) : Option Challenge :=
  match afterDigest header.toList with
  | none => none
  | some _ =>
    let first := firstChallenge header.toList
    let text := (afterDigest first).getD first
    let result : Challenge := (attributes text.length text).map
      (fun e => (digest.toLowerCase (String.ofList e.1), String.ofList e.2))
    if (truthy (result.get "realm")).isSome ∧ (truthy (result.get "nonce")).isSome then some result
    else none

def quoteDigest (value : String) : String :=
  "\"" ++ String.ofList (value.toList.flatMap
    (fun c => if c = '"' ∨ c = '\\' then ['\\', c] else [c])) ++ "\""

def chooseQop (digest : Digest) (offered : Option String) : Option String :=
  (offered.map (fun qop => (qop.toList.splitOn ',').map
    (fun cs => digest.toLowerCase (trim (String.ofList cs))))).bind (List.find? (· = "auth"))

def digestAuthorization (digest : Digest) (challenge : Challenge) (cnonce : String) :
    Except RpcError String := do
  let username ← Lib.Throwing.orThrow { message := "Digest credentials are unavailable" }
    (truthy digest.username)
  let secret ← Lib.Throwing.orThrow { message := "Digest credentials are unavailable" } digest.password
  let realm := (challenge.get "realm").getD ""
  let nonce := (challenge.get "nonce").getD ""
  let algorithm := digest.toUpperCase ((challenge.get "algorithm").getD "MD5")
  if algorithm ≠ "MD5" ∧ algorithm ≠ "MD5-SESS" then
    .error { message := "Unsupported RPC digest algorithm " ++ algorithm }
  else do
    let qop := chooseQop digest (challenge.get "qop")
    if (truthy (challenge.get "qop")).isSome ∧ qop.isNone then
      .error { message := "RPC digest challenge does not support auth qop" }
    else do
      let password ← secret.mapError (fun message => { message := message })
      let initialHa1 := digest.md5 (username ++ ":" ++ realm ++ ":" ++ password)
      let ha1 := if algorithm = "MD5-SESS" then
        digest.md5 (initialHa1 ++ ":" ++ nonce ++ ":" ++ cnonce) else initialHa1
      let ha2 := digest.md5 ("POST:" ++ digest.uri)
      let response := match qop with
        | some qop => digest.md5 (ha1 ++ ":" ++ nonce ++ ":00000001:" ++ cnonce ++ ":" ++ qop ++ ":" ++ ha2)
        | none => digest.md5 (ha1 ++ ":" ++ nonce ++ ":" ++ ha2)
      .ok (",".intercalate
        (["Digest username=" ++ quoteDigest username, "realm=" ++ quoteDigest realm,
          "nonce=" ++ quoteDigest nonce, "uri=" ++ quoteDigest digest.uri] ++
        (if qop.isSome then ["cnonce=" ++ quoteDigest cnonce, "nc=00000001"] else []) ++
        ["algorithm=" ++ algorithm, "response=" ++ quoteDigest response] ++
        ((truthy (challenge.get "opaque")).map (fun s => "opaque=" ++ quoteDigest s)).toList ++
        (qop.map (fun q => "qop=" ++ quoteDigest q)).toList))

end Challenge

structure Client where
  nextId : ℕ
  wire : List Request
  results : List (Except RpcError (Option Json))

def Client.fresh : Client := ⟨1, [], []⟩

/-- Where `callOnce` stands: the await whose settling is due. -/
inductive Point where
  | start (call : Asked)
  | sent (id : ℕ) (call : Asked)
  | drain (id : ℕ) (call : Asked) (challenge : Challenge)
  | retried (id : ℕ) (call : Asked)
  | reading (id : ℕ) (call : Asked)

def request (id : ℕ) (call : Asked) (authorization : Option String) : Request :=
  ⟨id, call.method, call.params, authorization⟩

def Client.send (c : Client) (r : Request) : Client := { c with wire := c.wire ++ [r] }

def Client.finish (c : Client) (result : Except RpcError (Option Json)) :
    Client × Option Point :=
  ({ c with results := c.results ++ [result] }, none)

def httpError (r : Response) : RpcError :=
  { message := "RPC HTTP " ++ toString r.status ++ " " ++ r.statusText }

def settleResponse (c : Client) (id : ℕ) (call : Asked) (r : Response) : Client × Option Point :=
  if r.ok then (c, some (.reading id call)) else c.finish (.error (httpError r))

def settlePayload (c : Client) (call : Asked) (p : Payload) : Client × Option Point :=
  match p.error with
  | some e =>
    c.finish (.error ⟨e.message.getD ("RPC " ++ call.method ++ " failed"), e.code, e.data⟩)
  | none => c.finish (.ok p.result)

def proceedOnce (digest : Digest) (c : Client) (p : Point) (o : Outcome) :
    Client × Option Point :=
  match p with
  | .start call =>
    (({ c with nextId := c.nextId + 1 }).send (request c.nextId call none),
      some (.sent c.nextId call))
  | .sent id call =>
    if o.response.status = 401 ∧ digest.hasCredentials then
      match parseDigestChallenge digest (o.response.wwwAuthenticate.getD "") with
      | some challenge => (c, some (.drain id call challenge))
      | none => settleResponse c id call o.response
    else settleResponse c id call o.response
  | .drain id call challenge =>
    match digestAuthorization digest challenge o.cnonce with
    | .ok authorization =>
      (c.send (request id call (some authorization)), some (.retried id call))
    | .error e => c.finish (.error e)
  | .retried id call => settleResponse c id call o.response
  | .reading _ call => settlePayload c call o.payload

/-- `callOnce` in digest mode. A rejected await ends it with its error; nothing is
awaited before the first request. -/
def callOnce (digest : Digest) : Body Client Asked Point Outcome where
  start := .start
  step c p o :=
    match p, o.rejected with
    | .start call, _ => proceedOnce digest c (.start call) o
    | _, some message => c.finish (.error { message := message })
    | p, none => proceedOnce digest c p o

/-- The requests of one call: the plain one, and after a challenge the same again with
an answer to it. -/
inductive Exchange (id : ℕ) (call : Asked) : List Request → Prop where
  | plain : Exchange id call [request id call none]
  | retried (authorization : String) :
      Exchange id call [request id call none, request id call (some authorization)]

structure Told (c : Client) (call : Asked) (c' : Client) (round : List Request) : Prop where
  nextId : c'.nextId = c.nextId + 1
  wire : c'.wire = c.wire ++ round
  exchange : Exchange c.nextId call round

inductive Said (c : Client) (call : Asked) (c' : Client) (p : Point) : Prop where
  | nothing (hp : p = .start call) (hc : c' = c)
  | asked (hp : p = .sent c.nextId call ∨ ∃ challenge, p = .drain c.nextId call challenge)
      (h : Told c call c' [request c.nextId call none])
  | answered {round : List Request} (hp : p = .retried c.nextId call ∨ p = .reading c.nextId call)
      (h : Told c call c' round)

/-- The requests on the wire are those of the calls, one call after the other. -/
structure Spoken (calls : List Asked) (c : Client) : Prop where
  nextId : c.nextId = calls.length + 1
  wire : ∃ rounds : List (List Request), c.wire = rounds.flatten ∧ rounds.length = calls.length ∧
    ∀ i call round, calls[i]? = some call → rounds[i]? = some round → Exchange (i + 1) call round

section Steps

variable {digest : Digest} {c c' c'' : Client} {call : Asked} {p : Point} {o : Outcome}
  {next : Option Point}

/-- Everything an await of `callOnce` can lead to. -/
inductive Stepped (c : Client) (p : Point) (c' : Client) : Option Point → Prop where
  | asks {call : Asked} (hp : p = .start call)
      (hc : c' = ({ c with nextId := c.nextId + 1 }).send (request c.nextId call none)) :
      Stepped c p c' (some (.sent c.nextId call))
  | challenged {id : ℕ} {call : Asked} {challenge : Challenge} (hp : p = .sent id call) (hc : c' = c) :
      Stepped c p c' (some (.drain id call challenge))
  | answers {id : ℕ} {call : Asked} {challenge : Challenge} {authorization : String}
      (hp : p = .drain id call challenge)
      (hc : c' = c.send (request id call (some authorization))) :
      Stepped c p c' (some (.retried id call))
  | reads {id : ℕ} {call : Asked} (hp : p = .sent id call ∨ p = .retried id call) (hc : c' = c) :
      Stepped c p c' (some (.reading id call))
  | settles (hp : ∀ call, p ≠ .start call) (hid : c'.nextId = c.nextId) (hw : c'.wire = c.wire) :
      Stepped c p c' none

theorem settleResponse_stepped {id : ℕ} {r : Response} (hp : p = .sent id call ∨ p = .retried id call)
    (h : settleResponse c id call r = (c', next)) : Stepped c p c' next := by
  rw [settleResponse] at h
  split at h
  · cases h
    exact Stepped.reads hp rfl
  · cases h
    refine Stepped.settles ?_ rfl rfl
    rintro call' rfl
    simp at hp

theorem step_stepped (h : (callOnce digest).step c p o = (c', next)) : Stepped c p c' next := by
  have hend : ∀ result, (∀ call, p ≠ .start call) → Client.finish c result = (c', next) →
      Stepped c p c' next := by
    intro result hp hf
    cases hf
    exact Stepped.settles hp rfl rfl
  cases p with
  | start call =>
    cases h
    exact Stepped.asks rfl rfl
  | sent id call =>
    cases hr : o.rejected with
    | some message =>
      simp only [callOnce, hr] at h
      exact hend _ (by simp) h
    | none =>
      simp only [callOnce, hr, proceedOnce] at h
      split at h
      · split at h
        · cases h
          exact Stepped.challenged rfl rfl
        · exact settleResponse_stepped (.inl rfl) h
      · exact settleResponse_stepped (.inl rfl) h
  | drain id call challenge =>
    cases hr : o.rejected with
    | some message =>
      simp only [callOnce, hr] at h
      exact hend _ (by simp) h
    | none =>
      simp only [callOnce, hr, proceedOnce] at h
      split at h
      · cases h
        exact Stepped.answers rfl rfl
      · exact hend _ (by simp) h
  | retried id call =>
    cases hr : o.rejected with
    | some message =>
      simp only [callOnce, hr] at h
      exact hend _ (by simp) h
    | none =>
      simp only [callOnce, hr, proceedOnce] at h
      exact settleResponse_stepped (.inr rfl) h
  | reading id call =>
    cases hr : o.rejected with
    | some message =>
      simp only [callOnce, hr] at h
      exact hend _ (by simp) h
    | none =>
      simp only [callOnce, hr, proceedOnce, settlePayload] at h
      split at h <;> exact hend _ (by simp) h

/-- The await after the last one brings no request. -/
theorem Said.step (hs : Said c call c' p) (h : Stepped c' p c'' next) :
    (∀ p' ∈ next, Said c call c'' p') ∧ (next = none → ∃ round, Told c call c'' round) := by
  cases h with
  | @asks call' hp hc =>
    refine ⟨?_, by simp⟩
    rintro _ ⟨⟩
    cases hs with
    | nothing hp' hc' =>
      subst hp hc'
      cases hp'
      subst hc
      exact Said.asked (.inl rfl) ⟨rfl, rfl, .plain⟩
    | asked hp' | answered hp' => simp [hp] at hp'
  | challenged hp hc =>
    refine ⟨?_, by simp⟩
    rintro _ ⟨⟩
    subst hp hc
    cases hs with
    | nothing hp' => cases hp'
    | asked hp' ht =>
      obtain ⟨rfl, rfl⟩ : _ ∧ _ := by simpa using hp'
      exact Said.asked (.inr ⟨_, rfl⟩) ht
    | answered hp' => simp at hp'
  | @answers _ _ _ authorization hp hc =>
    refine ⟨?_, by simp⟩
    rintro _ ⟨⟩
    subst hp hc
    cases hs with
    | nothing hp' => cases hp'
    | asked hp' ht =>
      obtain ⟨rfl, rfl⟩ : _ ∧ _ := by simpa using hp'
      refine Said.answered (.inl rfl) ⟨ht.nextId, ?_, .retried authorization⟩
      simp [Client.send, ht.wire]
    | answered hp' => simp at hp'
  | @reads id call' hp hc =>
    refine ⟨?_, by simp⟩
    rintro _ ⟨⟩
    subst hc
    cases hs with
    | nothing hp' =>
      subst hp'
      simp at hp
    | asked hp' ht =>
      obtain rfl | rfl := hp
      · obtain ⟨rfl, rfl⟩ : id = c.nextId ∧ call' = call := by simpa using hp'
        exact Said.answered (.inr rfl) ht
      · simp at hp'
    | answered hp' ht =>
      obtain rfl | rfl := hp
      · simp at hp'
      · obtain ⟨rfl, rfl⟩ : id = c.nextId ∧ call' = call := by simpa using hp'
        exact Said.answered (.inr rfl) ht
  | settles hp hid hw =>
    refine ⟨by simp, fun _ => ?_⟩
    cases hs with
    | nothing hp' => exact absurd hp' (hp call)
    | asked _ ht => exact ⟨_, hid.trans ht.nextId, hw.trans ht.wire, ht.exchange⟩
    | answered _ ht => exact ⟨_, hid.trans ht.nextId, hw.trans ht.wire, ht.exchange⟩

theorem Within.said (h : Within (callOnce digest) c call c' p) : Said c call c' p := by
  induction h with
  | start => exact Said.nothing rfl rfl
  | step _ he ih => exact (ih.step (step_stepped he)).1 _ rfl

theorem Spoken.snoc {calls : List Asked} {round : List Request} (hs : Spoken calls c)
    (ht : Told c call c' round) : Spoken (calls ++ [call]) c' := by
  obtain ⟨rounds, hw, hlen, hx⟩ := hs.wire
  refine ⟨?_, rounds ++ [round], ?_, ?_, ?_⟩
  · rw [ht.nextId, hs.nextId, List.length_append, List.length_singleton]
  · rw [ht.wire, hw, List.flatten_append, List.flatten_singleton]
  · rw [List.length_append, List.length_append, hlen]
    rfl
  · intro i call' round' hc hr
    by_cases hi : i < calls.length
    · rw [List.getElem?_append_left hi] at hc
      rw [List.getElem?_append_left (by omega)] at hr
      exact hx i call' round' hc hr
    · have hlast : i = calls.length := by
        have := (List.getElem?_eq_some_iff.mp hc).1
        rw [List.length_append, List.length_singleton] at this
        omega
      subst hlast
      rw [List.getElem?_concat_length] at hc
      rw [← hlen, List.getElem?_concat_length] at hr
      cases hc
      cases hr
      rw [← hs.nextId]
      exact ht.exchange

theorem Serial.spoken {calls : List Asked} (h : Serial (callOnce digest) .fresh calls c) :
    Spoken calls c := by
  induction h with
  | nil => exact ⟨rfl, [], rfl, rfl, by simp⟩
  | snoc _ hw he ih =>
    obtain ⟨round, ht⟩ := ((Within.said hw).step (step_stepped he)).2 rfl
    exact ih.snoc ht

end Steps

def sampleDigest : Digest where
  username := some "miningrpc"
  password := some (.ok "password")
  uri := "/json_rpc"
  md5 s := s
  toLowerCase s := s
  toUpperCase s := s

def unauthorized : Response :=
  ⟨401, "Unauthorized", some "Digest qop=\"auth\",algorithm=MD5,realm=\"monero-rpc\",nonce=\"fresh\""⟩

def sampleCalls : List (Event Asked Outcome) :=
  [.call ⟨"get_height", .null⟩, .call ⟨"get_version", .null⟩, .resume 0, .act 0 {},
    .act 0 { response := unauthorized }, .act 0 { cnonce := "first" }]

def sampleRest : List (Event Asked Outcome) :=
  [.act 0 {}, .act 0 {}, .resume 1, .act 1 {}, .act 1 { rejected := some "RPC request timed out" }]

theorem sampleCalls_run : ∃ q : Queue Client Asked Point,
    Reaches (callOnce sampleDigest) (.start .fresh) q ∧
      exec (callOnce sampleDigest) (.start .fresh) sampleCalls = some q ∧
      (exec (callOnce sampleDigest) q sampleRest).isSome := by
  have hall : (exec (callOnce sampleDigest) (.start .fresh) (sampleCalls ++ sampleRest)).isSome := by
    decide +kernel
  rw [exec, List.foldlM_append] at hall
  obtain ⟨q', hq'⟩ := Option.isSome_iff_exists.mp hall
  obtain ⟨q, hq, hrest⟩ := Option.bind_eq_some_iff.mp hq'
  refine ⟨q, exec_reaches .refl hq, hq, ?_⟩
  rw [exec, hrest]
  rfl

/-- Calls in digest mode reach the server one after the other, in the order in which
they were made: whatever the interleaving, the requests on the wire are those of the
first calls, call by call, and the answer to a challenge is the very next request. -/
theorem digest_calls_one_by_one {digest : Digest} {q : Queue Client Asked Point}
    (h : Reaches (callOnce digest) (.start .fresh) q) :
    ∃ k, k ≤ q.arrived.length ∧ Spoken (q.arrived.take k) q.shared := by
  obtain ⟨k, ht⟩ := h.turns
  have hk : k ≤ q.arrived.length := by
    rw [ht.arrived]
    exact ht.served
  cases ht.turn with
  | between hs _ => exact ⟨k, hk, Serial.spoken hs⟩
  | «at» hcall _ hs hw =>
    have hspoken := Serial.spoken hs
    have hlt := (List.getElem?_eq_some_iff.mp hcall).1
    cases Within.said hw with
    | nothing _ hc =>
      refine ⟨k, hk, ?_⟩
      rw [hc]
      exact hspoken
    | asked _ htold | answered _ htold =>
      refine ⟨k + 1, hlt, ?_⟩
      rw [List.take_add_one, hcall]
      exact hspoken.snoc htold

theorem digest_calls_one_by_one_sample : ∃ q : Queue Client Asked Point,
    exec (callOnce sampleDigest) (.start .fresh) sampleCalls = some q ∧
      ∃ k, k ≤ q.arrived.length ∧ Spoken (q.arrived.take k) q.shared := by
  obtain ⟨q, hr, hq, _⟩ := sampleCalls_run
  exact ⟨q, hq, digest_calls_one_by_one hr⟩

def Point.rank : Point → ℕ
  | .start _ => 4
  | .sent _ _ => 3
  | .drain _ _ _ => 2
  | .retried _ _ => 1
  | .reading _ _ => 0

theorem rank_step (digest : Digest) (c : Client) (p : Point) (o : Outcome) (c' : Client)
    (p' : Point) (h : (callOnce digest).step c p o = (c', some p')) : p'.rank < p.rank := by
  generalize hn : some p' = next at h
  cases step_stepped h with
  | asks hp | challenged hp | answers hp =>
    cases hn
    subst hp
    simp [Point.rank]
  | reads hp =>
    cases hn
    obtain rfl | rfl := hp <;> simp [Point.rank]
  | settles => cases hn

/-- No call waits for ever: however the calls that have been made proceed, they stop
only when all of them have settled, and after a bounded number of steps. -/
theorem digest_calls_settle {digest : Digest} {q q' : Queue Client Asked Point} {n : ℕ}
    (h : Reaches (callOnce digest) (.start .fresh) q) (hm : Moves (callOnce digest) n q q') :
    n + q'.load (callOnce digest) Point.rank ≤ q.load (callOnce digest) Point.rank ∧
      ((∀ e, e.isCall = false → next (callOnce digest) q' e = none) →
        ∀ call ∈ q'.calls, call = .settled) := by
  refine ⟨hm.load_le (rank_step digest), fun hstuck => ?_⟩
  obtain ⟨k, ht⟩ := (hm.reaches h).turns
  exact ht.all_settled hstuck {}

theorem digest_calls_settle_sample : ∃ q q' : Queue Client Asked Point,
    exec (callOnce sampleDigest) (.start .fresh) sampleCalls = some q ∧
      5 + q'.load (callOnce sampleDigest) Point.rank ≤ q.load (callOnce sampleDigest) Point.rank := by
  obtain ⟨q, hr, hq, hrest⟩ := sampleCalls_run
  obtain ⟨q', hq'⟩ := Option.isSome_iff_exists.mp hrest
  have hm : Moves (callOnce sampleDigest) (0 + 5) q q' := exec_moves (.refl q) (by decide) hq'
  exact ⟨q, q', hq, (digest_calls_settle hr hm).1⟩

end Bitmine.RpcClient
