import Bitmine.Lib.IndexOf
import Bitmine.Lib.JsNumber
import Bitmine.Lib.Utf8
import Bitmine.ProxyDecision

namespace Bitmine.ConnectTunnel

open Bitmine.Lib.Utf8 (Bytes)
open Bitmine.Lib.IndexOf Bitmine.Lib.JsNumber
open Bitmine.Security Bitmine.ProxyDecision

inductive Listener where
  | onData
  | reader

/-- A socket that is being dialled: what it holds itself, and what the reader of whoever
has got it has been handed. -/
structure Tunnel where
  sent : String
  buffer : List Char
  listener : Option Listener
  flowing : Bool
  timer : Bool
  destroyed : Bool
  settled : Option (Except String Unit)
  held : Bytes
  delivered : Bytes

inductive Event where
  | connect
  | data (chunk : Bytes)
  | error (message : String)
  | timeout
  | listen
  | pause

def crlf : Bytes := [13, 10]

def blankLine : Bytes := [13, 10, 13, 10]

/-- `toString('latin1')` -/
def latin1 (bs : Bytes) : List Char := bs.map (fun b => Char.ofNat b.toNat)

/-- `Buffer.from(text, 'latin1')` -/
def ofLatin1 (cs : List Char) : Bytes := cs.map (fun c => UInt8.ofNat c.toNat)

def Tunnel.readable (t : Tunnel) : Bytes := t.delivered ++ t.held

/-- While it flows, a socket hands on all it holds before any promise goes on; where
nobody listens, that is lost. -/
def Tunnel.flow (t : Tunnel) : Tunnel :=
  if t.flowing then
    match t.listener with
    | some .reader => { t with held := [], delivered := t.delivered ++ t.held }
    | _ => { t with held := [] }
  else t

def dialled : Tunnel := ⟨"", [], some .onData, true, true, false, none, [], []⟩

def Tunnel.settle (t : Tunnel) (r : Except String Unit) : Tunnel :=
  { t with settled := t.settled.or (some r) }

def statusCode (statusLine : List Char) : Option ℚ :=
  ((statusLine.splitOn ' ')[1]?).bind (number isSpace)

def refusal (statusLine : List Char) : String :=
  "Proxy CONNECT failed: " ++ if statusLine = [] then "no response" else String.ofList statusLine

def onData (t : Tunnel) (chunk : Bytes) : Tunnel :=
  let buffer := t.buffer ++ latin1 chunk
  match indexOf (latin1 blankLine) buffer with
  | none => { t with buffer := buffer }
  | some headerEnd =>
    let t := { t with buffer := buffer, timer := false, listener := none }
    let statusLine := match indexOf (latin1 crlf) buffer with
      | some i => buffer.take i
      | none => buffer.dropLast
    if statusCode statusLine ≠ some 200 then
      { t with destroyed := true }.settle (.error (refusal statusLine))
    else
      let trailing := buffer.drop (headerEnd + 4)
      { t with held := ofLatin1 trailing ++ t.held }.settle (.ok ())

def fail (t : Tunnel) (message : String) : Tunnel :=
  { t with timer := false, destroyed := true }.settle (.error message)

def connectRequest (base64 : String → String) (destinationHost : String) (destinationPort : ℕ)
    (proxy : ResolvedGatewayProxy) : String :=
  let destination := destinationHost ++ ":" ++ toString destinationPort
  let authHeader := match truthy proxy.username with
    | some username =>
      "Proxy-Authorization: Basic " ++ base64 (username ++ ":" ++ proxy.password.getD "") ++ "\r\n"
    | none => ""
  "CONNECT " ++ destination ++ " HTTP/1.1\r\nHost: " ++ destination ++ "\r\n" ++ authHeader ++
    "Connection: keep-alive\r\n\r\n"

section Runs

variable (base64 : String → String) (destinationHost : String) (destinationPort : ℕ)
  (proxy : ResolvedGatewayProxy)

def step (t : Tunnel) : Event → Tunnel
  | .connect => { t with sent := connectRequest base64 destinationHost destinationPort proxy }
  | .data chunk =>
    if t.destroyed then t
    else match t.listener with
      | some .onData => (onData t chunk).flow
      | _ => { t with held := t.held ++ chunk }.flow
  | .error message => fail t message
  | .timeout => if t.timer then fail t "Proxy CONNECT tunnel timed out" else t
  | .listen =>
    match t.settled with
    | some (.ok _) => { t with listener := some .reader }.flow
    | _ => t
  | .pause =>
    match t.settled with
    | some (.ok _) => { t with flowing := false }
    | _ => t

def dialHttpConnectTunnel (events : List Event) : Tunnel :=
  (.connect :: events).foldl (step base64 destinationHost destinationPort proxy) dialled

def handedOver (before : List Bytes) (takes : Event) (after : List Bytes) : Tunnel :=
  dialHttpConnectTunnel base64 destinationHost destinationPort proxy
    (before.map .data ++ takes :: after.map .data)

end Runs

/-- The first line decides whether the promise resolves, and what can be read then is all
that stands behind the header. -/
structure Lossless (t : Tunnel) (line body : Bytes) : Prop where
  resolves : t.settled = some (.ok ()) ↔ statusCode (latin1 line) = some 200
  rejects : statusCode (latin1 line) ≠ some 200 → t.settled = some (.error (refusal (latin1 line)))
  readable : t.settled = some (.ok ()) → t.readable = body

section Latin1

theorem ofLatin1_latin1 (bs : Bytes) : ofLatin1 (latin1 bs) = bs := by
  rw [ofLatin1, latin1, List.map_map]
  refine (List.map_congr_left (fun b _ => ?_)).trans (List.map_id bs)
  have hb : b.toNat < 256 := b.toNat_lt
  have hvalid : b.toNat.isValidChar := .inl (by omega)
  simp [Char.ofNat, hvalid, Char.toNat_ofNatAux]

theorem byteChar_injective : Function.Injective (fun b : UInt8 => Char.ofNat b.toNat) := by
  intro b b' h
  have hlist : latin1 [b] = latin1 [b'] := congrArg (fun c => [c]) h
  have hbytes := congrArg ofLatin1 hlist
  rw [ofLatin1_latin1, ofLatin1_latin1] at hbytes
  exact (List.cons.inj hbytes).1

theorem latin1_append (bs bs' : Bytes) : latin1 (bs ++ bs') = latin1 bs ++ latin1 bs' :=
  List.map_append

theorem indexOf_latin1 (pat bs : Bytes) : indexOf (latin1 pat) (latin1 bs) = indexOf pat bs :=
  indexOf_map byteChar_injective pat bs

end Latin1

section Reading

variable {base64 : String → String} {destinationHost : String} {destinationPort : ℕ}
  {proxy : ResolvedGatewayProxy} {t : Tunnel} {seen : Bytes}

/-- What is known of the tunnel once these bytes have come and nobody has turned to it: it
waits for the end of the header, or the status code has decided it and nothing is kept of
what stands behind the header. -/
def Heard (seen : Bytes) (t : Tunnel) : Prop :=
  t.flowing = true ∧ t.held = [] ∧ t.delivered = [] ∧
  match indexOf blankLine seen, indexOf crlf seen with
  | none, _ => t.buffer = latin1 seen ∧ t.listener = some .onData ∧ t.destroyed = false ∧
      t.settled = none
  | some _, some i => t.listener = none ∧
      if statusCode (latin1 (seen.take i)) = some 200 then
        t.destroyed = false ∧ t.settled = some (.ok ())
      else t.destroyed = true ∧ t.settled = some (.error (refusal (latin1 (seen.take i))))
  | some _, none => False

theorem indexOf_crlf {headerEnd : ℕ} (h : indexOf blankLine seen = some headerEnd) :
    ∃ i, indexOf crlf seen = some i := by
  have hoccurs : crlf <:+: seen := List.IsInfix.trans ⟨[], crlf, rfl⟩ (isInfix_of_indexOf h)
  obtain ⟨line, rest, hfirst⟩ := exists_firstAt hoccurs
  exact ⟨line.length, indexOf_of_firstAt hfirst⟩

theorem flow_unheard (hflowing : t.flowing = true) (hlistener : t.listener ≠ some .reader) :
    t.flow = { t with held := [] } := by
  rw [Tunnel.flow, if_pos hflowing]
  split
  · rename_i hreader
    exact absurd hreader hlistener
  · rfl

/-- The chunk that completes the header decides the tunnel. -/
theorem heard_onData (hflowing : t.flowing = true) (hdelivered : t.delivered = [])
    (hbuffer : t.buffer = latin1 seen) (hlistener : t.listener = some .onData)
    (hdestroyed : t.destroyed = false) (hsettled : t.settled = none) (chunk : Bytes) :
    Heard (seen ++ chunk) (onData t chunk).flow := by
  have hnext : t.buffer ++ latin1 chunk = latin1 (seen ++ chunk) := by
    rw [hbuffer, latin1_append]
  simp only [onData, hnext, indexOf_latin1]
  cases hend : indexOf blankLine (seen ++ chunk) with
  | none =>
    have hwaits : ({ t with buffer := latin1 (seen ++ chunk) } : Tunnel).listener ≠ some .reader := by
      simp [hlistener]
    dsimp only
    rw [flow_unheard (by exact hflowing) hwaits]
    simp only [Heard, hend]
    exact ⟨hflowing, trivial, hdelivered, trivial, hlistener, hdestroyed, hsettled⟩
  | some headerEnd =>
    obtain ⟨i, hi⟩ := indexOf_crlf hend
    have hline : (latin1 (seen ++ chunk)).take i = latin1 ((seen ++ chunk).take i) := by
      simp only [latin1, List.map_take]
    simp only [hi, hline]
    by_cases hcode : statusCode (latin1 ((seen ++ chunk).take i)) = some 200
    · rw [if_neg (not_not.mpr hcode), flow_unheard (by exact hflowing) (by simp [Tunnel.settle])]
      simp only [Heard, hend, hi, Tunnel.settle, hsettled, if_pos hcode]
      exact ⟨hflowing, trivial, hdelivered, trivial, hdestroyed, rfl⟩
    · rw [if_pos hcode, flow_unheard (by exact hflowing) (by simp [Tunnel.settle])]
      simp only [Heard, hend, hi, Tunnel.settle, hsettled, if_neg hcode]
      exact ⟨hflowing, trivial, hdelivered, trivial, trivial, rfl⟩

/-- Once it is decided, a chunk is lost, and decides nothing. -/
theorem heard_step (h : Heard seen t) (chunk : Bytes) :
    Heard (seen ++ chunk) (step base64 destinationHost destinationPort proxy t (.data chunk)) := by
  obtain ⟨hflowing, hheld, hdelivered, h⟩ := h
  cases hend : indexOf blankLine seen with
  | none =>
    simp only [hend] at h
    obtain ⟨hbuffer, hlistener, hdestroyed, hsettled⟩ := h
    simp only [step, hdestroyed, hlistener, Bool.false_eq_true, if_false]
    exact heard_onData hflowing hdelivered hbuffer hlistener hdestroyed hsettled chunk
  | some headerEnd =>
    obtain ⟨i, hi⟩ := indexOf_crlf hend
    have hline : (seen ++ chunk).take i = seen.take i := by
      have hshort := indexOf_length hi
      exact List.take_append_of_le_length (by omega)
    simp only [hend, hi] at h
    obtain ⟨hlistener, h⟩ := h
    by_cases hcode : statusCode (latin1 (seen.take i)) = some 200
    · rw [if_pos hcode] at h
      obtain ⟨hdestroyed, hsettled⟩ := h
      simp only [step, hdestroyed, hlistener, Bool.false_eq_true, if_false]
      rw [flow_unheard (by exact hflowing) (by simp)]
      simp only [Heard, indexOf_append hend, indexOf_append hi, hline, if_pos hcode]
      exact ⟨hflowing, trivial, hdelivered, trivial, trivial, hsettled⟩
    · rw [if_neg hcode] at h
      obtain ⟨hdestroyed, hsettled⟩ := h
      simp only [step, hdestroyed, if_true]
      simp only [Heard, indexOf_append hend, indexOf_append hi, hline, if_neg hcode]
      exact ⟨hflowing, hheld, hdelivered, hlistener, hdestroyed, hsettled⟩

theorem heard_run (chunks : List Bytes) : Heard chunks.flatten
    (dialHttpConnectTunnel base64 destinationHost destinationPort proxy (chunks.map .data)) := by
  induction chunks using List.reverseRecOn with
  | nil => exact ⟨rfl, rfl, rfl, rfl, rfl, rfl, rfl⟩
  | append_singleton chunks chunk ih =>
    have hflatten : (chunks ++ [chunk]).flatten = chunks.flatten ++ chunk := by simp
    have hrun : dialHttpConnectTunnel base64 destinationHost destinationPort proxy
        ((chunks ++ [chunk]).map .data) = step base64 destinationHost destinationPort proxy
          (dialHttpConnectTunnel base64 destinationHost destinationPort proxy (chunks.map .data))
          (.data chunk) := by
      simp [dialHttpConnectTunnel, List.foldl_append]
    rw [hflatten, hrun]
    exact heard_step ih chunk

structure Attended (t : Tunnel) : Prop where
  destroyed : t.destroyed = false
  settled : t.settled = some (.ok ())
  kept : t.listener = some .reader ∨ (t.flowing = false ∧ t.listener = none)

theorem attended_step (h : Attended t) (chunk : Bytes) :
    Attended (step base64 destinationHost destinationPort proxy t (.data chunk)) ∧
      (step base64 destinationHost destinationPort proxy t (.data chunk)).readable =
        t.readable ++ chunk := by
  obtain ⟨hdestroyed, hsettled, hreader | ⟨hpaused, hnobody⟩⟩ := h
  · simp only [step, hdestroyed, hreader, Bool.false_eq_true, if_false, Tunnel.flow]
    split
    · exact ⟨⟨rfl, hsettled, .inl rfl⟩, by simp [Tunnel.readable]⟩
    · exact ⟨⟨rfl, hsettled, .inl rfl⟩, by simp [Tunnel.readable]⟩
  · simp only [step, hdestroyed, hnobody, hpaused, Bool.false_eq_true, if_false, Tunnel.flow]
    exact ⟨⟨rfl, hsettled, .inr ⟨rfl, rfl⟩⟩, by simp [Tunnel.readable]⟩

theorem attended_run (h : Attended t) (chunks : List Bytes) :
    Attended ((chunks.map .data).foldl (step base64 destinationHost destinationPort proxy) t) ∧
      ((chunks.map .data).foldl (step base64 destinationHost destinationPort proxy) t).readable =
        t.readable ++ chunks.flatten := by
  induction chunks generalizing t with
  | nil => exact ⟨h, (List.append_nil _).symm⟩
  | cons chunk chunks ih =>
    obtain ⟨hnext, hread⟩ := @attended_step base64 destinationHost destinationPort proxy t h chunk
    obtain ⟨hend, hrest⟩ := ih hnext
    refine ⟨hend, ?_⟩
    rw [List.map_cons, List.foldl_cons, hrest, hread, List.flatten_cons, List.append_assoc]

theorem destroyed_run (h : t.destroyed = true) (chunks : List Bytes) :
    (chunks.map .data).foldl (step base64 destinationHost destinationPort proxy) t = t := by
  induction chunks with
  | nil => rfl
  | cons chunk chunks ih =>
    rw [List.map_cons, List.foldl_cons]
    simpa only [step, h, if_true] using ih

theorem attended_handover (hflowing : t.flowing = true) (hheld : t.held = [])
    (hdelivered : t.delivered = []) (hlistener : t.listener = none) (hdestroyed : t.destroyed = false)
    (hsettled : t.settled = some (.ok ())) {takes : Event} (htakes : takes = .listen ∨ takes = .pause) :
    Attended (step base64 destinationHost destinationPort proxy t takes) ∧
      (step base64 destinationHost destinationPort proxy t takes).readable = [] := by
  obtain rfl | rfl := htakes
  · simp only [step, hsettled, Tunnel.flow, hflowing, if_true]
    exact ⟨⟨hdestroyed, rfl, .inl rfl⟩, by simp [Tunnel.readable, hheld, hdelivered]⟩
  · simp only [step, hsettled]
    exact ⟨⟨hdestroyed, rfl, .inr ⟨rfl, hlistener⟩⟩, by simp [Tunnel.readable, hheld, hdelivered]⟩

/-- Whoever gets the socket reads what comes from then on. -/
theorem handedOver_spec {before after : List Bytes} {takes : Event}
    (htakes : takes = .listen ∨ takes = .pause) {header early line rest : Bytes}
    (hheader : FirstAt blankLine before.flatten header early)
    (hline : FirstAt crlf before.flatten line rest) :
    let t := handedOver base64 destinationHost destinationPort proxy before takes after
    if statusCode (latin1 line) = some 200 then
      t.settled = some (.ok ()) ∧ t.readable = after.flatten
    else t.settled = some (.error (refusal (latin1 line))) := by
  intro t
  let t₀ := dialHttpConnectTunnel base64 destinationHost destinationPort proxy (before.map .data)
  have hheard : Heard before.flatten t₀ := heard_run before
  have htake : before.flatten.take line.length = line := by
    rw [hline.split, List.take_left]
  have hrun : t = (after.map .data).foldl (step base64 destinationHost destinationPort proxy)
      (step base64 destinationHost destinationPort proxy t₀ takes) := by
    simp [t, t₀, handedOver, dialHttpConnectTunnel, List.foldl_append]
  simp only [Heard, indexOf_of_firstAt hheader, indexOf_of_firstAt hline, htake] at hheard
  obtain ⟨hflowing, hheld, hdelivered, hlistener, hheard⟩ := hheard
  by_cases hcode : statusCode (latin1 line) = some 200
  · rw [if_pos hcode] at hheard ⊢
    obtain ⟨hattended, hnothing⟩ := @attended_handover base64 destinationHost destinationPort proxy t₀
      hflowing hheld hdelivered hlistener hheard.1 hheard.2 takes htakes
    obtain ⟨hend, hread⟩ := @attended_run base64 destinationHost destinationPort proxy _ hattended after
    rw [hrun]
    exact ⟨hend.settled, by rw [hread, hnothing, List.nil_append]⟩
  · rw [if_neg hcode] at hheard ⊢
    have hignored : step base64 destinationHost destinationPort proxy t₀ takes = t₀ := by
      obtain rfl | rfl := htakes <;> simp only [step, hheard.2]
    rw [hrun, hignored, destroyed_run hheard.1]
    exact hheard.2

theorem firstAt_before {pat seen later front back : Bytes} (h : FirstAt pat (seen ++ later) front back)
    (hin : front.length + pat.length ≤ seen.length) : ∃ early, FirstAt pat seen front early ∧
      back = early ++ later := by
  have hsplit := h.split
  rw [← List.append_assoc] at hsplit
  obtain ⟨early, hseen, hback⟩ | ⟨early, hfront, hlater⟩ := List.append_eq_append_iff.mp hsplit
  · have hlen := congrArg List.length hseen
    simp only [List.length_append] at hlen
    have hnil : early = [] := List.eq_nil_of_length_eq_zero (by omega)
    subst hnil
    refine ⟨[], ⟨by simpa using hseen.symm, fun b a hb => ?_⟩, by simpa using hback.symm⟩
    exact h.first b (a ++ later) (by rw [hb]; simp)
  · refine ⟨early, ⟨by rw [hfront, List.append_assoc], fun b a hb => ?_⟩, hlater⟩
    exact h.first b (a ++ later) (by rw [hb]; simp)

end Reading

/-- However the answer is cut, its first line decides whether the promise resolves; but of
the bytes behind its first blank line those are lost that come before whoever has got the
socket turns to it. -/
theorem tunnel_lossless_iff (base64 : String → String) (destinationHost : String)
    (destinationPort : ℕ) (proxy : ResolvedGatewayProxy) {before after : List Bytes} {takes : Event}
    (htakes : takes = .listen ∨ takes = .pause) {header body line rest : Bytes}
    (hheader : FirstAt blankLine (before ++ after).flatten header body)
    (hline : FirstAt crlf (before ++ after).flatten line rest)
    (hcomplete : header.length + 4 ≤ before.flatten.length) :
    Lossless (handedOver base64 destinationHost destinationPort proxy before takes after) line body ↔
      (statusCode (latin1 line) = some 200 → before.flatten = header ++ blankLine) := by
  rw [List.flatten_append] at hheader hline
  obtain ⟨early, hearly, rfl⟩ := firstAt_before hheader hcomplete
  have hshort : line.length ≤ header.length :=
    hline.first header ([13, 10] ++ early ++ after.flatten) (by rw [hearly.split]; simp [crlf, blankLine])
  obtain ⟨_, hfirst, _⟩ := firstAt_before hline (by simp only [crlf, List.length_cons, List.length_nil]; omega)
  have hspec := @handedOver_spec base64 destinationHost destinationPort proxy before after takes htakes
    header early line _ hearly hfirst
  have hnothing : before.flatten = header ++ blankLine ↔ early = [] := by
    rw [hearly.split, ← List.append_assoc]
    simp
  rw [hnothing]
  by_cases hcode : statusCode (latin1 line) = some 200
  · rw [if_pos hcode] at hspec
    obtain ⟨hsettled, hread⟩ := hspec
    constructor
    · intro h _
      have hall := h.readable hsettled
      rw [hread] at hall
      exact List.append_left_eq_self.mp hall.symm
    · intro h
      refine ⟨iff_of_true hsettled hcode, fun hne => absurd hcode hne, fun _ => ?_⟩
      rw [hread, h hcode, List.nil_append]
  · rw [if_neg hcode] at hspec
    have hrefused : (handedOver base64 destinationHost destinationPort proxy before takes after).settled ≠
        some (.ok ()) := by
      rw [hspec]
      simp
    exact iff_of_true ⟨iff_of_false hrefused hcode, fun _ => hspec, fun hok => absurd hok hrefused⟩
      (fun hok => absurd hok hcode)

section Sample

def sampleProxy : ResolvedGatewayProxy := ⟨.http, "proxy.lan", 3128, some "alice", some "secret"⟩

def sampleHeader : List Bytes := ["HTTP/1.1 200 OK\r\n\r".toUTF8.toList, [10]]

def sampleBody : List Bytes := ["\x7b\"id\"".toUTF8.toList, [0x3a, 0xc3], [0xa9, 0x7d, 13, 10, 13, 10]]

theorem tunnel_lossless_sample : sampleHeader.flatten = sampleHeader.flatten.take 15 ++ blankLine ∧
    Lossless (handedOver id "pool" 3333 sampleProxy sampleHeader .listen sampleBody)
      ((sampleHeader ++ sampleBody).flatten.take 15)
      ((sampleHeader ++ sampleBody).flatten.drop 19) := by
  have hheader : indexOf blankLine (sampleHeader ++ sampleBody).flatten = some 15 := by decide +kernel
  have hline : indexOf crlf (sampleHeader ++ sampleBody).flatten = some 15 := by decide +kernel
  have hnothing : sampleHeader.flatten = sampleHeader.flatten.take 15 ++ blankLine := by decide +kernel
  refine ⟨hnothing, (tunnel_lossless_iff id "pool" 3333 sampleProxy (.inl rfl)
    (firstAt_of_indexOf hheader) (firstAt_of_indexOf hline) (by decide +kernel)).mpr (fun _ => ?_)⟩
  decide +kernel

/-- The header and three bytes of the pool come in one chunk, three more once the pool's
session listens: it reads the latter only. -/
theorem tunnel_loses_bytes : ¬ ∀ (base64 : String → String) (destinationHost : String)
    (destinationPort : ℕ) (proxy : ResolvedGatewayProxy) (before after : List Bytes) (takes : Event),
    (takes = .listen ∨ takes = .pause) → ∀ header body line rest : Bytes,
    FirstAt blankLine (before ++ after).flatten header body →
    FirstAt crlf (before ++ after).flatten line rest → header.length + 4 ≤ before.flatten.length →
    Lossless (handedOver base64 destinationHost destinationPort proxy before takes after) line body := by
  intro h
  let before : List Bytes := ["HTTP/1.1 200 OK\r\n\r\nabc".toUTF8.toList]
  let after : List Bytes := ["def".toUTF8.toList]
  have hheader : indexOf blankLine (before ++ after).flatten = some 15 := by decide +kernel
  have hline : indexOf crlf (before ++ after).flatten = some 15 := by decide +kernel
  have hlossless := h id "pool" 3333 sampleProxy before after .listen (.inl rfl) _ _ _ _
    (firstAt_of_indexOf hheader) (firstAt_of_indexOf hline) (by decide +kernel)
  have hcode : statusCode (latin1 ((before ++ after).flatten.take 15)) = some 200 := by decide +kernel
  have hread := hlossless.readable (hlossless.resolves.mpr hcode)
  revert hread
  decide +kernel

end Sample

end Bitmine.ConnectTunnel
