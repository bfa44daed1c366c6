import Bitmine.Lib.History
import Bitmine.LineJsonPeer

namespace Bitmine.Framing

open Bitmine.Lib.JsonText Bitmine.Lib.JsonParse Bitmine.Lib.Lines Bitmine.Lib.Utf8
open Bitmine.Lib.History
open Bitmine.Security Bitmine.LineJsonPeer

variable (numberText : String → String) (maxLineBytes : ℕ)

def messageOf (line : Bytes) : Option Json :=
  if lineText line = [] then none else parse numberText (lineText line)

structure GoodLine (line : Bytes) : Prop where
  short : line.length ≤ maxLineBytes
  text : lineText line = [] ∨ ∃ members, parse numberText (lineText line) = some (.obj members)

/-- A stream of such lines, with an unfinished one at the end. -/
structure GoodStream (s : Bytes) : Prop where
  lines : ∀ line ∈ (split newline s).1, GoodLine numberText maxLineBytes line
  tail : (split newline s).2.length ≤ maxLineBytes

def messages (s : Bytes) : List Json := (split newline s).1.filterMap (messageOf numberText)

def begun (log : List Entry) : List (ℕ × Json) :=
  log.filterMap (fun
    | .started line value => some (line, value)
    | _ => none)

def ended (log : List Entry) : List (ℕ × Option String) :=
  log.filterMap (fun
    | .settled line error => some (line, error)
    | _ => none)

def protocolErrors (log : List Entry) : List (ℕ × ProtocolError) :=
  log.filterMap (fun
    | .protocolError line e => some (line, e)
    | _ => none)

def failures (log : List Entry) : List (ℕ × ProtocolError) :=
  log.filterMap (fun
    | .settled line (some reason) => some (line, .handler reason)
    | _ => none)

def Serial (before : List Entry) : Entry → Prop
  | .started _ _ => (begun before).map Prod.fst = (ended before).map Prod.fst
  | _ => True

/-- The handler has been called with the first of the messages, once each and in
order, the others are due, and all errors are failures of handlers. -/
structure Delivers (p : Peer) (l : List Json) : Prop where
  once : (begun p.log).map Prod.snd ++ p.queue.map Prod.snd = l
  serial : Justified Serial p.log
  errors : protocolErrors p.log = failures p.log

section Lines

variable {numberText maxLineBytes}

theorem trim_sublist (cs : List Char) : (trim (String.ofList cs)).toList.Sublist cs := by
  have hdrop : (cs.dropWhile isSpace).Sublist cs := (List.dropWhile_suffix isSpace).sublist
  have hright : ((cs.dropWhile isSpace).reverse.dropWhile isSpace).Sublist
      (cs.dropWhile isSpace).reverse := (List.dropWhile_suffix isSpace).sublist
  rw [trim, String.toList_ofList, String.toList_ofList]
  exact (List.reverse_sublist.mp (by simpa using hright)).trans hdrop

theorem lineText_length (line : Bytes) : length (lineText line) ≤ line.length :=
  (sublist_length (trim_sublist (decode line))).trans (decode_length line)

theorem judge_good {line : Bytes} (h : GoodLine numberText maxLineBytes line) :
    judge numberText maxLineBytes line = (match messageOf numberText line with
      | none => .blank
      | some value => .message value) := by
  have hlen : ¬ maxLineBytes < length (lineText line) :=
    not_lt.mpr ((lineText_length line).trans h.short)
  rw [judge, if_neg hlen, messageOf]
  by_cases hblank : lineText line = []
  · rw [if_pos hblank, if_pos hblank]
  · rw [if_neg hblank, if_neg hblank]
    obtain ⟨members, hparse⟩ := h.text.resolve_left hblank
    rw [readMessage, hparse]

theorem outcomes_good {lines : List Bytes} (h : ∀ l ∈ lines, GoodLine numberText maxLineBytes l) (i : ℕ) :
    ((outcomes numberText maxLineBytes i lines).filterMap Outcome.queued).map Prod.snd =
      lines.filterMap (messageOf numberText) ∧
    (outcomes numberText maxLineBytes i lines).filterMap Outcome.logged = [] ∧
      taken numberText maxLineBytes lines = lines.length := by
  induction lines generalizing i with
  | nil => exact ⟨rfl, rfl, rfl⟩
  | cons line lines ih =>
    obtain ⟨hline, hlines⟩ := List.forall_mem_cons.mp h
    obtain ⟨hqueue, hlog, htaken⟩ := ih hlines (i + 1)
    have hj := judge_good hline
    cases hm : messageOf numberText line with
    | none =>
      rw [hm] at hj
      simp only [outcomes, taken, hj, List.filterMap_cons, hm]
      exact ⟨hqueue, hlog, congrArg (· + 1) htaken⟩
    | some value =>
      rw [hm] at hj
      simp only [outcomes, taken, hj, List.filterMap_cons, hm, Outcome.queued, Outcome.logged,
        List.map_cons]
      exact ⟨congrArg (value :: ·) hqueue, hlog, congrArg (· + 1) htaken⟩

theorem GoodStream.left {a b : Bytes} (h : GoodStream numberText maxLineBytes (a ++ b)) :
    GoodStream numberText maxLineBytes a := by
  obtain ⟨hlines, htail⟩ := h
  rw [split_append] at hlines htail
  refine ⟨fun l hl => hlines l (List.mem_append_left _ hl), ?_⟩
  obtain ⟨l, ls, hs, hpre⟩ | ⟨_, hpre⟩ := split_open (split_free newline a).2 b
  · exact hpre.length_le.trans (hlines l (by simp [hs])).short
  · exact hpre.length_le.trans htail

def UpTo (r : Reader) (s : Bytes) : Prop :=
  r = ⟨(split newline s).2, (split newline s).1.length⟩

theorem consume_good {r : Reader} {s chunk : Bytes} (hr : UpTo r s)
    (h : GoodStream numberText maxLineBytes (s ++ chunk)) :
    UpTo (consume numberText maxLineBytes r chunk).1 (s ++ chunk) ∧
    ((consume numberText maxLineBytes r chunk).2.filterMap Outcome.queued).map Prod.snd =
      (split newline ((split newline s).2 ++ chunk)).1.filterMap (messageOf numberText) ∧
    (consume numberText maxLineBytes r chunk).2.filterMap Outcome.logged = [] := by
  obtain ⟨hlines, htail⟩ := h
  obtain rfl : r = ⟨(split newline s).2, (split newline s).1.length⟩ := hr
  have hsplit := split_append newline s chunk
  rw [hsplit] at hlines htail
  obtain ⟨hqueue, hlog, htaken⟩ := outcomes_good
    (fun l hl => hlines l (List.mem_append_right _ hl)) (split newline s).1.length
  have hopen : ¬ (maxLineBytes < ((split newline s).2 ++ chunk).length ∧
      newline ∉ (split newline s).2 ++ chunk) := by
    rintro ⟨hlong, hfree⟩
    rw [split_of_free hfree] at htail
    exact absurd htail (not_le.mpr hlong)
  have hloop := loop_eq numberText maxLineBytes _
    ⟨(split newline s).2 ++ chunk, (split newline s).1.length⟩ le_rfl
  rw [consume, if_neg hopen, hloop]
  refine ⟨?_, hqueue, hlog⟩
  rw [UpTo, hsplit, htaken, List.drop_length, List.length_append]
  rfl

end Lines

section Runs

variable {numberText maxLineBytes}

/-- What holds of a peer that has received a part of a good stream. -/
structure Carries (numberText : String → String) (p : Peer) (s : Bytes) : Prop
    extends Delivers p (messages numberText s) where
  reader : UpTo p.reader s
  busy : (begun p.log).map Prod.fst =
    (ended p.log).map Prod.fst ++ (p.running.map Prod.fst).toList

theorem carries_fresh : Carries numberText Peer.fresh [] :=
  ⟨⟨rfl, justified_nil Serial, rfl⟩, rfl, rfl⟩

theorem Carries.data {p p' : Peer} {s chunk : Bytes} (h : Carries numberText p s)
    (hgood : GoodStream numberText maxLineBytes (s ++ chunk))
    (hstep : p.step numberText maxLineBytes (.data chunk) = some p') :
    Carries numberText p' (s ++ chunk) := by
  obtain ⟨⟨honce, hserial, herrors⟩, hreader, hbusy⟩ := h
  obtain ⟨hup, hqueue, hlog⟩ := consume_good hreader hgood
  simp only [Peer.step, Option.some.injEq] at hstep
  subst hstep
  rw [foldl_put, hlog, List.append_nil]
  refine ⟨⟨?_, hserial, herrors⟩, hup, hbusy⟩
  rw [messages, split_append, List.filterMap_append, List.map_append, hqueue, ← List.append_assoc,
    honce]
  rfl

theorem Carries.start {p p' : Peer} {s : Bytes} (h : Carries numberText p s)
    (hstep : p.step numberText maxLineBytes .start = some p') : Carries numberText p' s := by
  obtain ⟨⟨honce, hserial, herrors⟩, hreader, hbusy⟩ := h
  simp only [Peer.step] at hstep
  split at hstep
  · rename_i line value queue hnone hqueue
    cases hstep
    rw [hnone] at hbusy
    rw [hqueue] at honce
    refine ⟨⟨?_, ?_, ?_⟩, hreader, ?_⟩
    · rw [← honce]
      simp [begun]
    · apply hserial.snoc
      simpa [Serial] using hbusy
    · simpa [protocolErrors, failures] using herrors
    · simpa [begun, ended] using hbusy
  · cases hstep

theorem Carries.settle {p p' : Peer} {s : Bytes} {error : Option String}
    (h : Carries numberText p s)
    (hstep : p.step numberText maxLineBytes (.settle error) = some p') :
    Carries numberText p' s := by
  obtain ⟨⟨honce, hserial, herrors⟩, hreader, hbusy⟩ := h
  obtain ⟨⟨line, value⟩, hrunning, rfl⟩ := Option.map_eq_some_iff.mp hstep
  rw [hrunning] at hbusy
  cases error with
  | none =>
    refine ⟨⟨?_, hserial.snoc (show Serial p.log (.settled line none) from trivial), ?_⟩,
      hreader, ?_⟩
    · simpa [begun] using honce
    · simpa [protocolErrors, failures] using herrors
    · simpa [begun, ended] using hbusy
  | some reason =>
    refine ⟨⟨?_, ?_, ?_⟩, hreader, ?_⟩
    · simpa [begun] using honce
    · have hsettled := hserial.snoc (show Serial p.log (.settled line (some reason)) from trivial)
      have htold := hsettled.snoc (show Serial _ (.protocolError line (.handler reason)) from trivial)
      simpa using htold
    · simpa [protocolErrors, failures] using herrors
    · simpa [begun, ended] using hbusy

theorem Carries.run {events : List Event} {p p' : Peer} {s : Bytes} (h : Carries numberText p s)
    (hgood : GoodStream numberText maxLineBytes (s ++ received events))
    (hrun : run numberText maxLineBytes p events = some p') :
    Carries numberText p' (s ++ received events) := by
  induction events generalizing p s with
  | nil =>
    cases hrun
    simpa [received] using h
  | cons e events ih =>
    obtain ⟨q, hstep, hrest⟩ := Option.bind_eq_some_iff.mp hrun
    cases e with
    | data chunk =>
      have hreceived : received (.data chunk :: events) = chunk ++ received events := rfl
      rw [hreceived, ← List.append_assoc] at hgood ⊢
      exact ih (h.data hgood.left hstep) hgood hrest
    | start => exact ih (h.start hstep) hgood hrest
    | settle error => exact ih (h.settle hstep) hgood hrest

end Runs

section Sent

variable {numberText maxLineBytes}

theorem encode_append (cs ds : List Char) : encode (cs ++ ds) = encode cs ++ encode ds := by
  simp [encode]

theorem trim_of_ends {c d : Char} {cs : List Char} (hc : isSpace c = false) (hd : isSpace d = false) :
    (trim (String.ofList (c :: (cs ++ [d])))).toList = c :: (cs ++ [d]) := by
  rw [trim, String.toList_ofList, String.toList_ofList, List.dropWhile_cons_of_neg (by simp [hc])]
  simp [hd]

theorem not_mem_encode {cs : List Char} (h : Printable cs) : newline ∉ encode cs := by
  intro hmem
  obtain ⟨c, hc, hn⟩ := mem_encode (by decide) hmem
  have hlow := h c hc
  rw [hn] at hlow
  exact absurd hlow (by decide)

theorem lineText_sent (members : List (String × Json)) :
    lineText (encode (Json.stringify (.obj members)).toList) =
      (Json.stringify (.obj members)).toList := by
  rw [lineText, decode_encode, stringify_obj]
  exact trim_of_ends (by decide) (by decide)

theorem send_eq (m : Json) : send true m = encode (Json.stringify m).toList ++ [newline] := by
  rw [send, if_pos rfl, encode_append]
  rfl

/-- Objects that are sent make up a good stream of these objects. -/
theorem sent_good {l : List (List (String × Json))} (hl : ∀ m ∈ l, Proper numberText (.obj m) ∧
    (encode (Json.stringify (.obj m)).toList).length ≤ maxLineBytes) :
    GoodStream numberText maxLineBytes (l.flatMap (fun m => send true (.obj m))) ∧
      messages numberText (l.flatMap (fun m => send true (.obj m))) = l.map .obj := by
  have hsplit : split newline (l.flatMap (fun m => send true (.obj m))) =
      (l.map (fun m => encode (Json.stringify (.obj m)).toList), []) := by
    have hjoin : l.flatMap (fun m => send true (.obj m)) =
        join newline (l.map (fun m => encode (Json.stringify (.obj m)).toList)) [] := by
      simp [join, List.flatMap_map, send_eq]
    rw [hjoin]
    refine split_join (fun line hline => ?_) (by simp)
    obtain ⟨m, hm, rfl⟩ := List.mem_map.mp hline
    exact not_mem_encode (stringify_printable _ (hl m hm).1)
  have hparse : ∀ m ∈ l, parse numberText (lineText (encode (Json.stringify (.obj m)).toList)) =
      some (.obj m) := by
    intro m hm
    rw [lineText_sent]
    exact parse_stringify (hl m hm).1
  refine ⟨⟨?_, by rw [hsplit]; exact Nat.zero_le _⟩, ?_⟩
  · rw [hsplit]
    intro line hline
    obtain ⟨m, hm, rfl⟩ := List.mem_map.mp hline
    exact ⟨(hl m hm).2, .inr ⟨m, hparse m hm⟩⟩
  · rw [messages, hsplit, List.filterMap_map, ← List.filterMap_eq_map]
    refine List.filterMap_congr (fun m hm => ?_)
    have hne : lineText (encode (Json.stringify (.obj m)).toList) ≠ [] := by
      rw [lineText_sent, stringify_obj]
      exact List.cons_ne_nil _ _
    rw [Function.comp_apply, messageOf, if_neg hne, hparse m hm]
    rfl

end Sent

section Rest

variable {numberText maxLineBytes}

/-- Handlers start and settle, and nothing arrives. -/
def HandlersOnly (error : Option String) (events : List Event) : Prop :=
  ∀ e ∈ events, e = .start ∨ e = .settle error

theorem run_cons {p q : Peer} {e : Event} {events : List Event}
    (h : p.step numberText maxLineBytes e = some q) :
    run numberText maxLineBytes p (e :: events) = run numberText maxLineBytes q events := by
  rw [run, List.foldlM_cons, h]
  rfl

theorem step_settle {p : Peer} {line : ℕ} {value : Json} (error : Option String)
    (h : p.running = some (line, value)) : p.step numberText maxLineBytes (.settle error) =
      some { p with
        running := none
        log := p.log ++ .settled line error ::
          (error.map (fun reason => .protocolError line (.handler reason))).toList } := by
  rw [Peer.step, h]
  rfl

variable (numberText maxLineBytes) in
theorem idle_rests (error : Option String) (queue : List (ℕ × Json)) : ∀ p : Peer,
    p.queue = queue → p.running = none → ∃ events p', HandlersOnly error events ∧
      run numberText maxLineBytes p events = some p' ∧ p'.queue = [] ∧ p'.running = none := by
  induction queue with
  | nil => exact fun p hqueue hrunning => ⟨[], p, fun _ he => absurd he List.not_mem_nil, rfl, hqueue, hrunning⟩
  | cons m queue ih =>
    intro p hqueue hrunning
    obtain ⟨line, value⟩ := m
    have hstart : p.step numberText maxLineBytes .start = some { p with
        queue, running := some (line, value), log := p.log ++ [.started line value] } := by
      rw [Peer.step, hrunning, hqueue]
    obtain ⟨events, p', honly, hrun, hrest⟩ := ih { p with
      queue, running := none, log := (p.log ++ [.started line value]) ++ .settled line error ::
        (error.map (fun reason => .protocolError line (.handler reason))).toList } rfl rfl
    refine ⟨.start :: .settle error :: events, p', fun e he => ?_, ?_, hrest⟩
    · obtain rfl | he := List.mem_cons.mp he
      · exact .inl rfl
      · obtain rfl | he := List.mem_cons.mp he
        · exact .inr rfl
        · exact honly e he
    · rw [run_cons hstart, run_cons (step_settle error rfl)]
      exact hrun

theorem rests (error : Option String) (p : Peer) : ∃ events p', HandlersOnly error events ∧
    run numberText maxLineBytes p events = some p' ∧ p'.queue = [] ∧ p'.running = none := by
  cases hrunning : p.running with
  | none => exact idle_rests numberText maxLineBytes error p.queue p rfl hrunning
  | some m =>
    obtain ⟨line, value⟩ := m
    obtain ⟨events, p', honly, hrun, hrest⟩ :=
      idle_rests numberText maxLineBytes error p.queue { p with
        running := none, log := p.log ++ .settled line error ::
          (error.map (fun reason => .protocolError line (.handler reason))).toList } rfl rfl
    refine ⟨.settle error :: events, p', fun e he => ?_, ?_, hrest⟩
    · obtain rfl | he := List.mem_cons.mp he
      · exact .inr rfl
      · exact honly e he
    · rw [run_cons (step_settle error hrunning)]
      exact hrun

end Rest

/-- However a stream of lines is cut into chunks and whatever the handlers do, the
handler is called once for every object of the stream, in order and one call after
the other, and the only errors are those of the handlers; so it is for the objects
that another peer has sent. Calls that are due are made once the handlers settle. -/
theorem framing_round_trip {events : List Event} {p : Peer}
    (hrun : run numberText maxLineBytes Peer.fresh events = some p) :
    (GoodStream numberText maxLineBytes (received events) →
      Delivers p (messages numberText (received events))) ∧
    (∀ l : List (List (String × Json)), (∀ m ∈ l, Proper numberText (.obj m) ∧
        (encode (Json.stringify (.obj m)).toList).length ≤ maxLineBytes) →
      received events = l.flatMap (fun m => send true (.obj m)) → Delivers p (l.map .obj)) ∧
    ∀ error, ∃ events' p', HandlersOnly error events' ∧
      run numberText maxLineBytes p events' = some p' ∧ p'.queue = [] ∧ p'.running = none := by
  have hstream : GoodStream numberText maxLineBytes (received events) →
      Delivers p (messages numberText (received events)) :=
    fun hgood => (carries_fresh.run hgood hrun).toDelivers
  refine ⟨hstream, fun l hl hreceived => ?_, fun error => rests error p⟩
  obtain ⟨hgood, hmessages⟩ := sent_good hl
  rw [hreceived, hmessages] at hstream
  exact hstream hgood

section Sample

def sampleMessages : List (List (String × Json)) :=
  [[("id", .num "1"), ("method", .str "é")], [("id", .num "2")]]

def sampleBytes : Bytes := sampleMessages.flatMap (fun m => send true (.obj m))

def sampleEvents : List Event :=
  [.data (sampleBytes.take 19), .data (sampleBytes.drop 19), .start,
    .settle (some "rejected"), .start]

theorem sampleMessages_proper : ∀ m ∈ sampleMessages, Proper id (.obj m) ∧
    (encode (Json.stringify (.obj m)).toList).length ≤ 64 := by
  intro m hm
  simp only [sampleMessages, List.mem_cons, List.not_mem_nil, or_false] at hm
  obtain rfl | rfl := hm
  · exact ⟨⟨rfl, ⟨by decide, rfl⟩, trivial, trivial⟩, by decide +kernel⟩
  · exact ⟨⟨rfl, ⟨by decide, rfl⟩, trivial⟩, by decide +kernel⟩

theorem framing_round_trip_sample : ∃ p, run id 64 Peer.fresh sampleEvents = some p ∧
    Delivers p (sampleMessages.map .obj) := by
  have hsome : (run id 64 Peer.fresh sampleEvents).isSome = true := by decide +kernel
  obtain ⟨p, hp⟩ := Option.isSome_iff_exists.mp hsome
  refine ⟨p, hp, (framing_round_trip id 64 hp).2.1 sampleMessages sampleMessages_proper ?_⟩
  have hbytes : received sampleEvents = sampleBytes.take 19 ++ sampleBytes.drop 19 := by
    simp [received, sampleEvents]
  exact hbytes.trans (List.take_append_drop 19 sampleBytes)

end Sample

end Bitmine.Framing
