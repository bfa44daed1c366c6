import Bitmine.Framing

namespace Bitmine.LineLimit

open Bitmine.Lib.JsonText Bitmine.Lib.Lines Bitmine.Lib.Utf8
open Bitmine.LineJsonPeer Bitmine.Framing Bitmine.Security

variable (numberText : String → String) (maxLineBytes : ℕ)

def linesOf (s : Bytes) : List Bytes := (split newline s).1

def pieces (s : Bytes) : List Bytes := linesOf s ++ [(split newline s).2]

structure FirstOverlong (s : Bytes) (i : ℕ) : Prop where
  long : ∃ line, (pieces s)[i]? = some line ∧ maxLineBytes < line.length
  first : ∀ j < i, ∀ line, (pieces s)[j]? = some line → line.length ≤ maxLineBytes

def Raised (p : Peer) (i : ℕ) : Prop := .protocolError i .exceeded ∈ p.log

/-- However the stream arrives, no overlong line comes to the handler, and the error
over the first one does not depend on the chunks. -/
structure HardLimit (s : Bytes) : Prop where
  refused : ∀ events p, run numberText maxLineBytes Peer.fresh events = some p →
    received events = s → ∀ i line, (pieces s)[i]? = some line → maxLineBytes < line.length →
      ∀ value, (i, value) ∉ begun p.log ++ p.queue
  uniform : ∀ i, FirstOverlong maxLineBytes s i → ∀ events events' p p',
    run numberText maxLineBytes Peer.fresh events = some p →
    run numberText maxLineBytes Peer.fresh events' = some p' →
    received events = s → received events' = s → (Raised p i ↔ Raised p' i)

def LongText (line : Bytes) : Prop := maxLineBytes < length (lineText line)

/-- The line holds nothing or the text of an object. -/
def Readable (line : Bytes) : Prop :=
  lineText line = [] ∨ ∃ value, readMessage numberText (lineText line) = .ok value

/-- The limit catches the overlong lines of a stream, however it arrives: the first one
is the whole input, or is too long as text as well and comes after lines without fault;
and none of them is an object that is short enough as text. -/
def Caught (s : Bytes) : Prop := ∀ i, FirstOverlong maxLineBytes s i →
  (∀ line ∈ linesOf s, maxLineBytes < line.length →
    LongText maxLineBytes line ∨ ∀ value, readMessage numberText (lineText line) ≠ .ok value) ∧
  (newline ∉ s ∨
    (∃ line, (linesOf s)[i]? = some line ∧ LongText maxLineBytes line) ∧
      ∀ j < i, ∀ line, (linesOf s)[j]? = some line →
        ¬ LongText maxLineBytes line ∧ Readable numberText line)

section Outcomes

variable {numberText maxLineBytes} {i : ℕ} {line : Bytes} {lines : List Bytes}

theorem judge_exceeded_iff :
    judge numberText maxLineBytes line = .fails .exceeded ↔ LongText maxLineBytes line := by
  unfold judge LongText
  split
  · rename_i h
    exact ⟨fun _ => h, fun _ => rfl⟩
  · rename_i h
    refine ⟨fun hj => ?_, fun hlong => absurd hlong h⟩
    split at hj
    · cases hj
    · split at hj
      · cases hj
      · rename_i e hr
        cases hj
        rw [readMessage] at hr
        split at hr <;> cases hr

variable (numberText maxLineBytes) in
def Passes (line : Bytes) : Prop := ∀ e, judge numberText maxLineBytes line ≠ .fails e

theorem passes_iff : Passes numberText maxLineBytes line ↔
    ¬ LongText maxLineBytes line ∧ Readable numberText line := by
  unfold Passes judge LongText Readable
  by_cases hlong : maxLineBytes < length (lineText line)
  · simp [hlong]
  · by_cases hblank : lineText line = []
    · simp [hblank, length]
    · cases hr : readMessage numberText (lineText line) <;> simp [hlong, hblank]

theorem readMessage_nil (value : Json) : readMessage numberText [] ≠ .ok value := by
  intro h
  cases h

theorem judge_message_iff {value : Json} :
    judge numberText maxLineBytes line = .message value ↔
      ¬ LongText maxLineBytes line ∧ readMessage numberText (lineText line) = .ok value := by
  unfold judge LongText
  by_cases hlong : maxLineBytes < length (lineText line)
  · simp [hlong]
  · by_cases hblank : lineText line = []
    · simp [hblank, readMessage_nil, length]
    · cases hr : readMessage numberText (lineText line) <;> simp [hlong, hblank]

variable (numberText maxLineBytes) in
theorem taken_le (lines : List Bytes) : taken numberText maxLineBytes lines ≤ lines.length := by
  induction lines with
  | nil => exact le_rfl
  | cons line lines ih =>
    rw [taken, List.length_cons]
    split <;> omega

theorem taken_passes (h : ∀ line ∈ lines, Passes numberText maxLineBytes line) :
    taken numberText maxLineBytes lines = lines.length := by
  induction lines with
  | nil => rfl
  | cons line lines ih =>
    obtain ⟨hline, hlines⟩ := List.forall_mem_cons.mp h
    rw [taken, List.length_cons, ih hlines]
    split
    · rename_i e he
      exact absurd he (hline e)
    · rfl

theorem message_of_mem {i₀ : ℕ} {value : Json}
    (h : .message i value ∈ outcomes numberText maxLineBytes i₀ lines) :
    ∃ j line, i = i₀ + j ∧ lines[j]? = some line ∧
      judge numberText maxLineBytes line = .message value := by
  induction lines generalizing i₀ with
  | nil => cases h
  | cons line lines ih =>
    have hlater : .message i value ∈ outcomes numberText maxLineBytes (i₀ + 1) lines →
        ∃ j line', i = i₀ + j ∧ (line :: lines)[j]? = some line' ∧
          judge numberText maxLineBytes line' = .message value := by
      intro hmem
      obtain ⟨j, line', hi, hline, hj⟩ := ih hmem
      exact ⟨j + 1, line', by omega, hline, hj⟩
    rw [outcomes] at h
    cases hj : judge numberText maxLineBytes line with
    | blank =>
      rw [hj] at h
      exact hlater h
    | message value' =>
      rw [hj] at h
      obtain he | hmem := List.mem_cons.mp h
      · cases he
        exact ⟨0, line, rfl, rfl, hj⟩
      · exact hlater hmem
    | fails e =>
      rw [hj] at h
      cases List.mem_singleton.mp h

/-- An error is raised over a line that fails, the first one to do so. -/
theorem error_mem_iff {i₀ : ℕ} {e : ProtocolError} :
    .protocolError i e ∈ outcomes numberText maxLineBytes i₀ lines ↔
      ∃ j line, i = i₀ + j ∧ lines[j]? = some line ∧
        judge numberText maxLineBytes line = .fails e ∧
          ∀ k < j, ∀ line', lines[k]? = some line' → Passes numberText maxLineBytes line' := by
  induction lines generalizing i₀ with
  | nil => simp [outcomes]
  | cons line lines ih =>
    by_cases hpass : Passes numberText maxLineBytes line
    · have hrest : .protocolError i e ∈ outcomes numberText maxLineBytes i₀ (line :: lines) ↔
          .protocolError i e ∈ outcomes numberText maxLineBytes (i₀ + 1) lines := by
        rw [outcomes]
        cases hj : judge numberText maxLineBytes line with
        | blank => rfl
        | message value => simp
        | fails e' => exact absurd hj (hpass e')
      rw [hrest, ih]
      constructor
      · rintro ⟨j, line', hi, hline, hfails, hbefore⟩
        refine ⟨j + 1, line', by omega, hline, hfails, fun k hk l hl => ?_⟩
        cases k with
        | zero =>
          cases hl
          exact hpass
        | succ k => exact hbefore k (by omega) l hl
      · rintro ⟨j, line', hi, hline, hfails, hbefore⟩
        cases j with
        | zero =>
          cases hline
          exact absurd hfails (hpass e)
        | succ j =>
          exact ⟨j, line', by omega, hline, hfails,
            fun k hk l hl => hbefore (k + 1) (by omega) l hl⟩
    · obtain ⟨e', hfails'⟩ : ∃ e', judge numberText maxLineBytes line = .fails e' := by
        simpa [Passes] using hpass
      rw [outcomes, hfails']
      constructor
      · intro h
        cases List.mem_singleton.mp h
        exact ⟨0, line, rfl, rfl, hfails', fun k hk => absurd hk (Nat.not_lt_zero k)⟩
      · rintro ⟨j, line', hi, hline, hfails, hbefore⟩
        cases j with
        | zero =>
          cases hline
          rw [hfails'] at hfails
          cases hfails
          rw [hi]
          exact List.mem_singleton.mpr rfl
        | succ j => exact absurd (hbefore 0 (Nat.succ_pos j) line rfl) hpass

end Outcomes

section Runs

variable {numberText maxLineBytes}

def chunksOf (events : List Event) : List Bytes :=
  events.filterMap (fun
    | .data chunk => some chunk
    | _ => none)

theorem received_eq (events : List Event) : received events = (chunksOf events).flatten := by
  induction events with
  | nil => rfl
  | cons e events ih =>
    cases e with
    | data chunk => exact congrArg (chunk ++ ·) ih
    | start | settle => exact ih

structure Reads (l : List Outcome) (p p' : Peer) : Prop where
  handed : begun p'.log ++ p'.queue = begun p.log ++ p.queue ++ l.filterMap Outcome.queued
  raised : ∀ i, Raised p' i ↔ Raised p i ∨ .protocolError i .exceeded ∈ l

theorem mem_logged {l : List Outcome} {i : ℕ} {e : ProtocolError} :
    .protocolError i e ∈ l.filterMap Outcome.logged ↔ .protocolError i e ∈ l := by
  constructor
  · intro h
    obtain ⟨o, ho, he⟩ := List.mem_filterMap.mp h
    cases o with
    | message => cases he
    | protocolError => cases he; exact ho
  · intro h
    exact List.mem_filterMap.mpr ⟨_, h, rfl⟩

theorem begun_logged (l : List Outcome) : begun (l.filterMap Outcome.logged) = [] := by
  induction l with
  | nil => rfl
  | cons o l ih => cases o <;> simpa [List.filterMap_cons, Outcome.logged, begun] using ih

theorem begun_append (l l' : List Entry) : begun (l ++ l') = begun l ++ begun l' :=
  List.filterMap_append

theorem run_reads {events : List Event} {p p' : Peer}
    (h : run numberText maxLineBytes p events = some p') :
    Reads (feed numberText maxLineBytes p.reader (chunksOf events)).2 p p' := by
  induction events generalizing p with
  | nil =>
    cases h
    exact ⟨by simp [chunksOf, feed], fun i => by simp [chunksOf, feed]⟩
  | cons e events ih =>
    obtain ⟨q, hstep, hrest⟩ := Option.bind_eq_some_iff.mp h
    obtain ⟨hhanded, hraised⟩ := ih hrest
    cases e with
    | data chunk =>
      simp only [Peer.step, Option.some.injEq] at hstep
      subst hstep
      simp only [foldl_put] at hhanded hraised
      have hfeed : (feed numberText maxLineBytes p.reader (chunksOf (.data chunk :: events))).2 =
          (consume numberText maxLineBytes p.reader chunk).2 ++
            (feed numberText maxLineBytes (consume numberText maxLineBytes p.reader chunk).1
              (chunksOf events)).2 := rfl
      rw [hfeed]
      refine ⟨?_, fun i => ?_⟩
      · rw [hhanded, begun_append, begun_logged, List.append_nil, List.filterMap_append]
        simp only [List.append_assoc]
      · rw [hraised, Raised, List.mem_append, mem_logged, List.mem_append, or_assoc]
        rfl
    | start =>
      simp only [Peer.step] at hstep
      split at hstep
      · rename_i line value queue hnone hqueue
        cases hstep
        refine ⟨?_, fun i => ?_⟩
        · simp only [begun_append] at hhanded
          rw [hhanded, hqueue]
          simp [begun, chunksOf]
        · rw [hraised]
          simp [Raised, chunksOf]
      · cases hstep
    | settle error =>
      obtain ⟨⟨line, value⟩, hrunning, rfl⟩ := Option.map_eq_some_iff.mp hstep
      refine ⟨?_, fun i => ?_⟩
      · simp only [begun_append] at hhanded
        rw [hhanded]
        cases error <;> simp [begun, chunksOf]
      · rw [hraised]
        cases error <;> simp [Raised, chunksOf]

variable (numberText maxLineBytes) in
theorem run_chunks (chunks : List Bytes) (p : Peer) :
    ∃ p', run numberText maxLineBytes p (chunks.map .data) = some p' := by
  induction chunks generalizing p with
  | nil => exact ⟨p, rfl⟩
  | cons chunk chunks ih =>
    obtain ⟨p', hp'⟩ := ih _
    exact ⟨p', (run_cons rfl).trans hp'⟩

theorem chunksOf_map (chunks : List Bytes) : chunksOf (chunks.map .data) = chunks := by
  simp [chunksOf, List.filterMap_map]

end Runs

section Reading

variable {numberText maxLineBytes} {r : Reader} {s chunk future : Bytes}

structure Within (s : Bytes) (r : Reader) (future : Bytes) : Prop where
  parts : split newline (r.buffer ++ future) = ((linesOf s).drop r.lines, (split newline s).2)

variable (numberText maxLineBytes) in
theorem consume_cases (r : Reader) (chunk : Bytes) :
    (maxLineBytes < (r.buffer ++ chunk).length ∧ newline ∉ r.buffer ++ chunk ∧
      consume numberText maxLineBytes r chunk =
        (⟨r.buffer ++ chunk, r.lines⟩, [.protocolError r.lines .exceeded])) ∨
    (¬ (maxLineBytes < (r.buffer ++ chunk).length ∧ newline ∉ r.buffer ++ chunk) ∧
      consume numberText maxLineBytes r chunk =
        (⟨join newline ((linesOf (r.buffer ++ chunk)).drop
            (taken numberText maxLineBytes (linesOf (r.buffer ++ chunk))))
            (split newline (r.buffer ++ chunk)).2,
          r.lines + taken numberText maxLineBytes (linesOf (r.buffer ++ chunk))⟩,
        outcomes numberText maxLineBytes r.lines (linesOf (r.buffer ++ chunk)))) := by
  by_cases h : maxLineBytes < (r.buffer ++ chunk).length ∧ newline ∉ r.buffer ++ chunk
  · exact .inl ⟨h.1, h.2, if_pos h⟩
  · refine .inr ⟨h, ?_⟩
    rw [consume, if_neg h]
    exact loop_eq numberText maxLineBytes _ ⟨r.buffer ++ chunk, r.lines⟩ le_rfl

theorem Within.step (h : Within s r (chunk ++ future)) :
    Within s (consume numberText maxLineBytes r chunk).1 future := by
  obtain ⟨hsplit⟩ := h
  rw [← List.append_assoc] at hsplit
  obtain ⟨_, _, hc⟩ | ⟨_, hc⟩ := consume_cases numberText maxLineBytes r chunk
  · rw [hc]
    exact ⟨hsplit⟩
  · rw [hc]
    obtain ⟨hlines, htail⟩ := split_free newline (r.buffer ++ chunk)
    rw [split_append] at hsplit
    obtain ⟨hdrop, hrest⟩ := Prod.mk.inj hsplit
    have hleft : split newline (join newline ((linesOf (r.buffer ++ chunk)).drop
        (taken numberText maxLineBytes (linesOf (r.buffer ++ chunk))))
          (split newline (r.buffer ++ chunk)).2) =
        ((linesOf (r.buffer ++ chunk)).drop
          (taken numberText maxLineBytes (linesOf (r.buffer ++ chunk))),
          (split newline (r.buffer ++ chunk)).2) :=
      split_join (fun l hl => hlines l (List.mem_of_mem_drop hl)) htail
    refine ⟨?_⟩
    have hle := taken_le numberText maxLineBytes (linesOf (r.buffer ++ chunk))
    rw [split_append, hleft, hrest, ← List.drop_drop, ← hdrop]
    exact congrArg (·, _) (List.drop_append_of_le_length hle).symm

theorem feed_cons (r : Reader) (chunk : Bytes) (chunks : List Bytes) :
    (feed numberText maxLineBytes r (chunk :: chunks)).2 =
      (consume numberText maxLineBytes r chunk).2 ++
        (feed numberText maxLineBytes (consume numberText maxLineBytes r chunk).1 chunks).2 := rfl

theorem feed_message {chunks : List Bytes} (h : Within s r chunks.flatten) {i : ℕ} {value : Json}
    (hmem : .message i value ∈ (feed numberText maxLineBytes r chunks).2) :
    ∃ line, (linesOf s)[i]? = some line ∧
      judge numberText maxLineBytes line = .message value := by
  induction chunks generalizing r with
  | nil => cases hmem
  | cons chunk chunks ih =>
    rw [feed_cons] at hmem
    obtain hmem | hmem := List.mem_append.mp hmem
    · obtain ⟨_, _, hc⟩ | ⟨_, hc⟩ := consume_cases numberText maxLineBytes r chunk
      · rw [hc] at hmem
        cases List.mem_singleton.mp hmem
      · rw [hc] at hmem
        obtain ⟨j, line, rfl, hline, hj⟩ := message_of_mem hmem
        have hsplit := h.parts
        rw [List.flatten_cons, ← List.append_assoc, split_append] at hsplit
        have hdrop := (Prod.mk.inj hsplit).1
        refine ⟨line, ?_, hj⟩
        rw [← List.getElem?_drop, ← hdrop]
        exact List.getElem?_append_left (List.getElem?_eq_some_iff.mp hline).1 ▸ hline
    · exact ih h.step hmem

theorem feed_append (r : Reader) (chunks chunks' : List Bytes) :
    (feed numberText maxLineBytes r (chunks ++ chunks')).2 =
      (feed numberText maxLineBytes r chunks).2 ++
        (feed numberText maxLineBytes (feed numberText maxLineBytes r chunks).1 chunks').2 := by
  induction chunks generalizing r with
  | nil => rfl
  | cons chunk chunks ih =>
    rw [List.cons_append, feed_cons, feed_cons, ih, List.append_assoc]
    rfl

end Reading

section Bytewise

variable {numberText maxLineBytes} {r : Reader} {s : Bytes}

def byByte (s : Bytes) : List Bytes := s.map (fun b => [b])

theorem flatten_byByte (s : Bytes) : (byByte s).flatten = s := by
  induction s with
  | nil => rfl
  | cons b s ih => exact congrArg (b :: ·) ih

theorem outcomes_singleton_taken (line : Bytes) : taken numberText maxLineBytes [line] = 1 := by
  rw [taken]
  split <;> rfl

theorem consume_byte (h : UpTo r s) (b : UInt8) :
    UpTo (consume numberText maxLineBytes r [b]).1 (s ++ [b]) := by
  obtain rfl : r = ⟨(split newline s).2, (split newline s).1.length⟩ := h
  have hfree := (split_free newline s).2
  have hsplit := split_append newline s [b]
  obtain ⟨_, hopen, hc⟩ | ⟨_, hc⟩ := consume_cases numberText maxLineBytes
    ⟨(split newline s).2, (split newline s).1.length⟩ [b]
  · rw [hc, UpTo, hsplit, split_of_free hopen, List.append_nil]
  · rw [hc, UpTo, hsplit]
    by_cases hb : b = newline
    · have hline : split newline ((split newline s).2 ++ [b]) = ([(split newline s).2], []) := by
        rw [hb]
        exact split_line hfree []
      simp only [linesOf, hline, outcomes_singleton_taken, List.length_append]
      rfl
    · have hopen : newline ∉ (split newline s).2 ++ [b] := by
        simpa [Ne.symm hb] using hfree
      simp only [linesOf, split_of_free hopen, List.append_nil, taken]
      rfl

variable (numberText maxLineBytes) in
theorem feed_byByte {s' : Bytes} (h : UpTo r s') :
    UpTo (feed numberText maxLineBytes r (byByte s)).1 (s' ++ s) := by
  induction s generalizing r s' with
  | nil =>
    rw [List.append_nil]
    exact h
  | cons b s ih => simpa [byByte, feed] using ih (consume_byte h b)

theorem upTo_nil : UpTo ⟨[], 0⟩ [] := rfl

theorem feed_start {lines : List Bytes} {part : Bytes} (hlines : ∀ l ∈ lines, newline ∉ l)
    (hpart : newline ∉ part) :
    (feed numberText maxLineBytes ⟨[], 0⟩ (byByte (join newline lines part))).1 =
      ⟨part, lines.length⟩ := by
  have hup := feed_byByte numberText maxLineBytes (s := join newline lines part) upTo_nil
  rw [List.nil_append] at hup
  exact hup.trans (by rw [split_join hlines hpart])

theorem mem_byByte {lines : List Bytes} {part rest : Bytes} {b : UInt8} {o : Outcome}
    (hs : s = join newline lines part ++ b :: rest) (hlines : ∀ l ∈ lines, newline ∉ l)
    (hpart : newline ∉ part)
    (ho : o ∈ (consume numberText maxLineBytes ⟨part, lines.length⟩ [b]).2) :
    o ∈ (feed numberText maxLineBytes ⟨[], 0⟩ (byByte s)).2 := by
  have hbytes : byByte s = byByte (join newline lines part) ++ [b] :: byByte rest := by
    rw [hs, byByte, List.map_append, List.map_cons]
    rfl
  rw [hbytes, feed_append, feed_start hlines hpart, feed_cons]
  exact List.mem_append_right _ (List.mem_append_left _ ho)

theorem split_at {i : ℕ} {piece : Bytes} (h : (pieces s)[i]? = some piece) :
    newline ∉ piece ∧ (∀ l ∈ (linesOf s).take i, newline ∉ l) ∧ ((linesOf s).take i).length = i ∧
      ∃ more, s = join newline ((linesOf s).take i) piece ++ more := by
  obtain ⟨hlines, htail⟩ := split_free newline s
  have hjoin := join_split newline s
  have hle : i ≤ (linesOf s).length := by
    have hlt := (List.getElem?_eq_some_iff.mp h).1
    rw [pieces, List.length_append, List.length_singleton] at hlt
    omega
  refine ⟨?_, fun l hl => hlines l (List.mem_of_mem_take hl), by simp [hle], ?_⟩
  · obtain hm | hm := List.mem_append.mp (List.mem_of_getElem? h)
    · exact hlines piece hm
    · rw [List.mem_singleton.mp hm]
      exact htail
  · obtain heq | hlt := Nat.eq_or_lt_of_le hle
    · refine ⟨[], ?_⟩
      have hpiece : (split newline s).2 = piece := by
        rw [pieces, heq, List.getElem?_append_right le_rfl] at h
        simpa using h
      rw [heq, List.take_length, ← hpiece, List.append_nil]
      exact hjoin.symm
    · have hline : (linesOf s)[i]? = some piece := by
        rwa [pieces, List.getElem?_append_left hlt] at h
      obtain ⟨_, hget⟩ := List.getElem?_eq_some_iff.mp hline
      refine ⟨newline :: join newline ((linesOf s).drop (i + 1)) (split newline s).2, ?_⟩
      have hdrop : (linesOf s).drop i = piece :: (linesOf s).drop (i + 1) := by
        rw [List.drop_eq_getElem_cons hlt, hget]
      conv_lhs => rw [← hjoin, ← List.take_append_drop i (split newline s).1]
      rw [join_append, show (split newline s).1.drop i = _ from hdrop, join_cons, join, join]
      exact (List.append_assoc _ _ _).symm

theorem line_at {i : ℕ} {line : Bytes} (h : (linesOf s)[i]? = some line) :
    (pieces s)[i]? = some line ∧
      ∃ rest, s = join newline ((linesOf s).take i) line ++ newline :: rest := by
  have hlt := (List.getElem?_eq_some_iff.mp h).1
  have hpiece : (pieces s)[i]? = some line := by rwa [pieces, List.getElem?_append_left hlt]
  refine ⟨hpiece, ?_⟩
  obtain ⟨hfree, hlines, hlen, more, hs⟩ := split_at hpiece
  -- were the stream to go on otherwise, the line would not be one
  have hsplit := congrArg (split newline) hs
  rw [split_append, split_join hlines hfree] at hsplit
  have hmore : (linesOf s).drop i = (split newline (line ++ more)).1 := by
    have hleft := congrArg Prod.fst hsplit
    simp only at hleft
    rw [linesOf, hleft, List.drop_append_of_le_length hlen.ge, ← hlen]
    simp [linesOf]
  have hdrop : (linesOf s).drop i = line :: (linesOf s).drop (i + 1) := by
    rw [List.drop_eq_getElem_cons hlt, (List.getElem?_eq_some_iff.mp h).2]
  have hjoin := join_split newline (line ++ more)
  rw [← hmore, hdrop, join_cons] at hjoin
  exact ⟨_, (List.append_cancel_left hjoin) ▸ hs⟩

theorem byByte_message {i : ℕ} {line : Bytes} {value : Json} (h : (linesOf s)[i]? = some line)
    (hj : judge numberText maxLineBytes line = .message value) :
    .message i value ∈ (feed numberText maxLineBytes ⟨[], 0⟩ (byByte s)).2 := by
  obtain ⟨hpiece, rest, hs⟩ := line_at h
  obtain ⟨hfree, hlines, hlen, _⟩ := split_at hpiece
  apply mem_byByte hs hlines hfree
  have hline : linesOf (line ++ [newline]) = [line] := by
    rw [linesOf, split_line hfree]
    rfl
  obtain ⟨_, hopen, _⟩ | ⟨_, hc⟩ := consume_cases numberText maxLineBytes
    ⟨line, ((linesOf s).take i).length⟩ [newline]
  · exact absurd (by simp) hopen
  · rw [hc]
    simp only [hline, hlen, outcomes, hj]
    exact List.mem_singleton.mpr rfl

theorem byByte_raised {i : ℕ} (h : FirstOverlong maxLineBytes s i) :
    .protocolError i .exceeded ∈ (feed numberText maxLineBytes ⟨[], 0⟩ (byByte s)).2 := by
  obtain ⟨piece, hpiece, hlong⟩ := h.long
  obtain ⟨hfree, hlines, hlen, more, hs⟩ := split_at hpiece
  have hcut : piece = piece.take maxLineBytes ++ piece[maxLineBytes] :: piece.drop (maxLineBytes + 1) := by
    rw [← List.drop_eq_getElem_cons hlong, List.take_append_drop]
  have hstream : s = join newline ((linesOf s).take i) (piece.take maxLineBytes) ++
      piece[maxLineBytes] :: (piece.drop (maxLineBytes + 1) ++ more) := by
    apply hs.trans
    rw [join, join, List.append_assoc, List.append_assoc, ← List.cons_append,
      ← List.append_assoc (piece.take _), ← hcut]
  have hpart : newline ∉ piece.take maxLineBytes := fun hm => hfree (List.mem_of_mem_take hm)
  apply mem_byByte hstream hlines hpart
  have hopen : newline ∉ piece.take maxLineBytes ++ [piece[maxLineBytes]] := by
    intro hm
    apply hfree
    rw [hcut, List.append_cons]
    exact List.mem_append_left _ hm
  have hexceeds : maxLineBytes < (piece.take maxLineBytes ++ [piece[maxLineBytes]]).length := by
    rw [List.length_append, List.length_take, List.length_singleton]
    omega
  rw [consume, if_pos ⟨hexceeds, hopen⟩, hlen]
  exact List.mem_singleton.mpr rfl

end Bytewise

section Chunks

variable {numberText maxLineBytes} {r : Reader} {s : Bytes} {chunks : List Bytes} {i : ℕ}

theorem raised_of_open (hopen : newline ∉ s) (hlong : maxLineBytes < s.length) {a : Bytes}
    (ha : a.length ≤ maxLineBytes) (hs : a ++ chunks.flatten = s) :
    .protocolError 0 .exceeded ∈ (feed numberText maxLineBytes ⟨a, 0⟩ chunks).2 := by
  induction chunks generalizing a with
  | nil =>
    rw [List.flatten_nil, List.append_nil] at hs
    exact absurd (hs ▸ ha) (not_le.mpr hlong)
  | cons chunk chunks ih =>
    rw [List.flatten_cons, ← List.append_assoc] at hs
    have hfree : newline ∉ a ++ chunk := fun hm => hopen (hs ▸ List.mem_append_left _ hm)
    rw [feed_cons]
    obtain ⟨_, _, hc⟩ | ⟨hshort, hc⟩ := consume_cases numberText maxLineBytes
      ⟨a, 0⟩ chunk
    · rw [hc]
      exact List.mem_append_left _ (List.mem_singleton.mpr rfl)
    · have hlen : (a ++ chunk).length ≤ maxLineBytes :=
        not_lt.mp (fun hlt => hshort ⟨hlt, hfree⟩)
      rw [hc]
      apply List.mem_append_right _
      simp only [linesOf, split_of_free hfree, taken]
      exact ih hlen hs

/-- A finished line that is too long as text is found out whatever the chunks, when
nothing goes wrong before it. -/
theorem raised_of_long {line : Bytes} (hline : (linesOf s)[i]? = some line)
    (hlong : LongText maxLineBytes line) (hfirst : FirstOverlong maxLineBytes s i)
    (hbefore : ∀ j < i, ∀ l, (linesOf s)[j]? = some l → Passes numberText maxLineBytes l)
    {a : Bytes} (hr : UpTo r a) (ha : (linesOf a).length ≤ i) (hs : a ++ chunks.flatten = s) :
    .protocolError i .exceeded ∈ (feed numberText maxLineBytes r chunks).2 := by
  induction chunks generalizing r a with
  | nil =>
    rw [List.flatten_nil, List.append_nil] at hs
    subst hs
    exact absurd (List.getElem?_eq_some_iff.mp hline).1 (not_lt.mpr ha)
  | cons chunk chunks ih =>
    rw [List.flatten_cons, ← List.append_assoc] at hs
    obtain rfl : r = ⟨(split newline a).2, (linesOf a).length⟩ := hr
    have hmore := split_append newline (a ++ chunk) chunks.flatten
    have hnew := split_append newline a chunk
    rw [hs] at hmore
    have hfirst' : linesOf (a ++ chunk) =
        linesOf a ++ linesOf ((split newline a).2 ++ chunk) := congrArg Prod.fst hnew
    have hall : linesOf s = linesOf (a ++ chunk) ++
        linesOf ((split newline (a ++ chunk)).2 ++ chunks.flatten) := congrArg Prod.fst hmore
    -- the lines that the chunk finishes are the next ones of the stream
    have hnext : ∀ k l, (linesOf ((split newline a).2 ++ chunk))[k]? = some l →
        (linesOf s)[(linesOf a).length + k]? = some l := by
      intro k l hk
      have hget : (linesOf (a ++ chunk))[(linesOf a).length + k]? = some l := by
        rw [hfirst', List.getElem?_append_right (Nat.le_add_right _ k), Nat.add_sub_cancel_left]
        exact hk
      rw [hall, List.getElem?_append_left (List.getElem?_eq_some_iff.mp hget).1]
      exact hget
    rw [feed_cons]
    obtain ⟨hexceeds, hopen, hc⟩ | ⟨_, hc⟩ := consume_cases numberText maxLineBytes
      ⟨(split newline a).2, (linesOf a).length⟩ chunk
    · rw [hc]
      apply List.mem_append_left _
      have hi : (linesOf a).length = i := by
        refine le_antisymm ha (not_lt.mp (fun hlt => ?_))
        have htail : split newline (a ++ chunk) = (linesOf a, (split newline a).2 ++ chunk) := by
          rw [hnew, split_of_free hopen, List.append_nil]
          rfl
        have hrest := split_append newline (a ++ chunk) chunks.flatten
        rw [hs, htail] at hrest
        obtain ⟨l, ls, hl, hpre⟩ | ⟨hnone, _⟩ := split_open hopen chunks.flatten
        · have hget : (pieces s)[(linesOf a).length]? = some l := by
            simp only at hl hrest
            rw [hl] at hrest
            rw [pieces, linesOf, hrest]
            simp
          exact absurd (hpre.length_le.trans (hfirst.first _ hlt l hget)) (not_le.mpr hexceeds)
        · have hlen := (List.getElem?_eq_some_iff.mp hline).1
          rw [linesOf, hrest, hnone, List.append_nil] at hlen
          exact absurd hlen (not_lt.mpr hlt.le)
      rw [hi]
      exact List.mem_singleton.mpr rfl
    · rw [hc]
      by_cases hreach : i < (linesOf a).length + (linesOf ((split newline a).2 ++ chunk)).length
      · refine List.mem_append_left _ (error_mem_iff.mpr ⟨i - (linesOf a).length, line,
          (Nat.add_sub_cancel' ha).symm, ?_, judge_exceeded_iff.mpr hlong, fun k hk l hl => ?_⟩)
        · have hlt : i - (linesOf a).length < (linesOf ((split newline a).2 ++ chunk)).length := by omega
          have hget := hnext _ _ (List.getElem?_eq_getElem hlt)
          rw [Nat.add_sub_cancel' ha, hline] at hget
          rw [hget, List.getElem?_eq_getElem hlt]
        · exact hbefore _ (by omega) l (hnext k l hl)
      · have hpass : ∀ l ∈ linesOf ((split newline a).2 ++ chunk), Passes numberText maxLineBytes l := by
          intro l hl
          obtain ⟨k, hk⟩ := List.mem_iff_getElem?.mp hl
          have hlt := (List.getElem?_eq_some_iff.mp hk).1
          exact hbefore _ (by omega) l (hnext k l hk)
        refine List.mem_append_right _ (ih ?_ ?_ hs)
        · rw [UpTo, hnew, taken_passes hpass, List.drop_length, List.length_append]
          rfl
        · rw [linesOf, hnew, List.length_append]
          exact not_lt.mp hreach

theorem exists_firstOverlong {line : Bytes} (hline : (pieces s)[i]? = some line)
    (hlong : maxLineBytes < line.length) : ∃ j, FirstOverlong maxLineBytes s j := by
  classical
  have hex : ∃ j, ∃ line : Bytes, (pieces s)[j]? = some line ∧ maxLineBytes < line.length :=
    ⟨i, line, hline, hlong⟩
  refine ⟨Nat.find hex, Nat.find_spec hex, fun j hj l hl => ?_⟩
  by_contra hlt
  exact Nat.find_min hex hj ⟨l, hl, not_le.mp hlt⟩

theorem firstOverlong_open (h : FirstOverlong maxLineBytes s i) (hopen : newline ∉ s) :
    i = 0 ∧ maxLineBytes < s.length := by
  obtain ⟨line, hline, hlong⟩ := h.long
  rw [pieces, linesOf, split_of_free hopen] at hline
  cases i with
  | zero =>
    cases hline
    exact ⟨rfl, hlong⟩
  | succ i => cases hline

theorem raised_at_once (h : .protocolError i .exceeded ∈
      (feed numberText maxLineBytes ⟨[], 0⟩ [s]).2) :
    newline ∉ s ∨
    (∃ line, (linesOf s)[i]? = some line ∧ LongText maxLineBytes line) ∧
      ∀ j < i, ∀ line, (linesOf s)[j]? = some line →
        ¬ LongText maxLineBytes line ∧ Readable numberText line := by
  rw [feed_cons] at h
  obtain h | h := List.mem_append.mp h
  · obtain ⟨_, hopen, _⟩ | ⟨_, hc⟩ := consume_cases numberText maxLineBytes ⟨[], 0⟩ s
    · exact .inl hopen
    · rw [hc] at h
      obtain ⟨j, line, hi, hline, hfails, hbefore⟩ := error_mem_iff.mp h
      rw [Nat.zero_add] at hi
      subst hi
      exact .inr ⟨⟨line, hline, judge_exceeded_iff.mp hfails⟩,
        fun k hk l hl => passes_iff.mp (hbefore k hk l hl)⟩
  · cases h

end Chunks

theorem handed_is_message {events : List Event} {p : Peer}
    (hrun : run numberText maxLineBytes Peer.fresh events = some p) {i : ℕ} {value : Json}
    (hmem : (i, value) ∈ begun p.log ++ p.queue) :
    ∃ line, (linesOf (received events))[i]? = some line ∧
      judge numberText maxLineBytes line = .message value := by
  have hreads := (run_reads hrun).handed
  rw [hreads] at hmem
  obtain ⟨o, ho, hqueued⟩ := List.mem_filterMap.mp hmem
  have hwithin : Within (received events) Peer.fresh.reader (chunksOf events).flatten := by
    rw [← received_eq]
    exact ⟨rfl⟩
  cases o with
  | message i' value' =>
    cases hqueued
    exact feed_message hwithin ho
  | protocolError => cases hqueued

theorem raised_iff {events : List Event} {p : Peer}
    (hrun : run numberText maxLineBytes Peer.fresh events = some p) {i : ℕ} :
    Raised p i ↔
      .protocolError i .exceeded ∈ (feed numberText maxLineBytes ⟨[], 0⟩ (chunksOf events)).2 := by
  rw [(run_reads hrun).raised i]
  exact or_iff_right List.not_mem_nil

/-- The chunks come one after the other, and nothing else happens. -/
theorem run_of_chunks {s : Bytes} {chunks : List Bytes} (hs : chunks.flatten = s) :
    ∃ p, run numberText maxLineBytes Peer.fresh (chunks.map .data) = some p ∧
      received (chunks.map .data) = s ∧
      (∀ i, Raised p i ↔
        .protocolError i .exceeded ∈ (feed numberText maxLineBytes ⟨[], 0⟩ chunks).2) ∧
      ∀ i value, .message i value ∈ (feed numberText maxLineBytes ⟨[], 0⟩ chunks).2 →
        (i, value) ∈ begun p.log ++ p.queue := by
  obtain ⟨p, hp⟩ := run_chunks numberText maxLineBytes
    chunks Peer.fresh
  have hreads := (run_reads hp).handed
  rw [chunksOf_map] at hreads
  refine ⟨p, hp, by rw [received_eq, chunksOf_map, hs], fun i => ?_, fun i value hmem => ?_⟩
  · rw [raised_iff numberText maxLineBytes hp, chunksOf_map]
  · rw [hreads]
    exact List.mem_append_right _ (List.mem_filterMap.mpr ⟨_, hmem, rfl⟩)

theorem Caught.raised {s : Bytes} (h : Caught numberText maxLineBytes s) {i : ℕ}
    (hfirst : FirstOverlong maxLineBytes s i) {events : List Event} {p : Peer}
    (hrun : run numberText maxLineBytes Peer.fresh events = some p)
    (hs : received events = s) : Raised p i := by
  rw [raised_iff numberText maxLineBytes hrun]
  rw [received_eq] at hs
  obtain hopen | ⟨⟨line, hline, hlong⟩, hbefore⟩ := (h i hfirst).2
  · obtain ⟨rfl, hlong⟩ := firstOverlong_open hfirst hopen
    exact raised_of_open hopen hlong (Nat.zero_le _) hs
  · exact raised_of_long hline hlong hfirst
      (fun j hj l hl => passes_iff.mpr (hbefore j hj l hl)) upTo_nil (Nat.zero_le i) hs

theorem HardLimit.not_message {s : Bytes} (h : HardLimit numberText maxLineBytes s) {i : ℕ}
    {line : Bytes} (hline : (linesOf s)[i]? = some line) (hlong : maxLineBytes < line.length)
    (value : Json) : judge numberText maxLineBytes line ≠ .message value := by
  intro hj
  obtain ⟨p, hp, hreceived, _, hhanded⟩ :=
    run_of_chunks numberText maxLineBytes (flatten_byByte s)
  exact h.refused _ p hp hreceived i line (line_at hline).1 hlong value
    (hhanded i value (byByte_message hline hj))

/-- The limit is a hard one for the streams of which the limit catches every overlong
line, and for no others. -/
theorem hardLimit_iff (s : Bytes) :
    HardLimit numberText maxLineBytes s ↔ Caught numberText maxLineBytes s := by
  constructor
  · intro h i hfirst
    refine ⟨fun line hmem hlong => ?_, ?_⟩
    · refine or_iff_not_imp_left.mpr (fun hshort value hread => ?_)
      obtain ⟨j, hj⟩ := List.mem_iff_getElem?.mp hmem
      exact h.not_message numberText maxLineBytes hj hlong value
        (judge_message_iff.mpr ⟨hshort, hread⟩)
    · -- byte by byte the error is raised, so it is in one chunk
      obtain ⟨p, hp, hreceived, hraised, _⟩ :=
        run_of_chunks numberText maxLineBytes (flatten_byByte s)
      obtain ⟨p', hp', hreceived', hraised', _⟩ :=
        run_of_chunks numberText maxLineBytes (show [s].flatten = s from List.append_nil s)
      have hbytes : Raised p i := (hraised i).mpr (byByte_raised hfirst)
      exact raised_at_once ((hraised' i).mp
        ((h.uniform i hfirst _ _ p p' hp hp' hreceived hreceived').mp hbytes))
  · intro h
    refine ⟨fun events p hrun hs i line hline hlong value hmem => ?_,
      fun i hfirst events events' p p' hrun hrun' hs hs' =>
        iff_of_true (h.raised numberText maxLineBytes hfirst hrun hs)
          (h.raised numberText maxLineBytes hfirst hrun' hs')⟩
    obtain ⟨line', hline', hj⟩ := handed_is_message numberText maxLineBytes hrun hmem
    rw [hs] at hline'
    obtain rfl : line = line' := Option.some.inj (hline.symm.trans (line_at hline').1)
    obtain ⟨j, hfirst⟩ := exists_firstOverlong hline hlong
    obtain ⟨hshort, hread⟩ := judge_message_iff.mp hj
    obtain hlongText | hno := (h j hfirst).1 line (List.mem_of_getElem? hline') hlong
    · exact hshort hlongText
    · exact hno value hread

section Counterexample

def paddedLine (n : ℕ) : Bytes := 0x7b :: 0x7d :: List.replicate n 0x20

theorem length_padded (n : ℕ) : (paddedLine n).length = n + 2 := by
  simp [paddedLine]

theorem padded_free (n : ℕ) : newline ∉ paddedLine n := by
  simp [paddedLine, newline]

theorem encode_padded (n : ℕ) :
    encode ('{' :: '}' :: List.replicate n ' ') = paddedLine n := by
  have hblanks : encode (List.replicate n ' ') = List.replicate n 0x20 := by
    induction n with
    | zero => rfl
    | succ n ih => exact congrArg (0x20 :: ·) ih
  exact congrArg (0x7b :: 0x7d :: ·) hblanks

theorem lineText_padded (n : ℕ) : lineText (paddedLine n) = ['{', '}'] := by
  have hblanks : ((List.replicate n ' ').reverse ++ ['}', '{']).dropWhile isSpace = ['}', '{'] := by
    rw [List.reverse_replicate]
    induction n with
    | zero => rfl
    | succ n ih => exact ih
  rw [lineText, ← encode_padded, decode_encode, trim, String.toList_ofList, String.toList_ofList]
  have hfront : ('{' :: '}' :: List.replicate n ' ').dropWhile isSpace =
      '{' :: '}' :: List.replicate n ' ' := rfl
  rw [hfront, List.reverse_cons, List.reverse_cons, List.append_assoc]
  exact congrArg List.reverse hblanks

/-- A line of 1025 bytes comes to the handler, for a limit of 1024. -/
theorem padded_line_handed : ¬ ∀ s, HardLimit id 1024 s := by
  intro h
  have hline : (linesOf (paddedLine 1023 ++ [newline]))[0]? = some (paddedLine 1023) := by
    rw [linesOf, split_line (padded_free 1023)]
    rfl
  have hlong : 1024 < (paddedLine 1023).length := by
    rw [length_padded]
    decide
  refine (h _).not_message id 1024 hline hlong (.obj []) (judge_message_iff.mpr ⟨?_, ?_⟩)
  · rw [LongText, lineText_padded]
    decide
  · rw [lineText_padded]
    rfl

end Counterexample

end Bitmine.LineLimit
