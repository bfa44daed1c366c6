import Bitmine.SessionHistory

namespace Bitmine.JobDifficulty

open Bitmine.Lib.Await Bitmine.Lib.JsonText Bitmine.Lib.History Bitmine.Lib.Rounding
open Bitmine.Schema Bitmine.Shares Bitmine.GatewaySession Bitmine.SessionHistory

/-- One thing that an upstream says about its jobs: a job that it hands out, a
difficulty, or both. -/
structure Announcement where
  job : Option String
  difficulty : Option String
  deriving DecidableEq

mutual

def jobsIn : Json → List Announcement
  | .obj members =>
    ⟨(Json.get? "job_id" (.obj members)).bind Json.scalar?,
      ((Json.get? "target" (.obj members)).bind Json.string?).map difficultyFromTarget⟩ ::
        jobsInside members
  | _ => []

def jobsInside : List (String × Json) → List Announcement
  | [] => []
  | (key, value) :: rest => if key = "job" then jobsIn value else jobsInside rest

end

/-- What a message announces: with Bitcoin difficulties and jobs come separately,
with Monero a job comes with its target. -/
def announcements (kind : AssetCode) (m : Message) : List Announcement :=
  match kind with
  | .btc =>
    if m.isMethod "mining.set_difficulty" then [⟨none, m.paramItems.head?.bind Json.scalar?⟩]
    else if m.isMethod "mining.notify" then [⟨m.paramItems.head?.bind Json.scalar?, none⟩]
    else []
  | .xmr => (m.params.map jobsIn).getD [] ++ (m.result.map jobsIn).getD []

def announced (kind : AssetCode) (heard : List Message) : List Announcement :=
  heard.flatMap (announcements kind)

def inForce (d : String) (l : List Announcement) : String := l.foldl (fun d a => a.difficulty.getD d) d

def latest (l : List Announcement) : Option String := l.foldl (fun o a => a.difficulty.or o) none

/-- The announcement assigns a difficulty to the job: its own target with
Monero, the difficulty in force with Bitcoin. -/
def Assigns (kind : AssetCode) (job : String) (a : Announcement) : Prop :=
  a.job = some job ∧ (kind = .xmr → a.difficulty.isSome = true)

/-- The upstream has assigned the difficulty to the job, most recently by the
announcement between the two parts. -/
def Assigned (kind : AssetCode) (job : String) (heard : List Message) (d : String) : Prop :=
  ∃ before a after, announced kind heard = before ++ a :: after ∧ Assigns kind job a ∧
    (∀ b ∈ after, ¬ Assigns kind job b) ∧ d = inForce "1" (before ++ [a])

def columns (decimal : Decimal) (kind : AssetCode) (d : String) : Option (ℚ × ℚ) :=
  (decimal d).map (fun q => (roundPlaces 18 q, normalizedWork kind q))

/-- The share is recorded at the difficulty, and its work follows from it. -/
def Credited (decimal : Decimal) (kind : AssetCode) (share : ShareEvent) (d : String) : Prop :=
  columns decimal kind d = some (share.difficulty, share.normalizedWork)

/-- The difficulty that was announced last since the job, if any was, is as a
number the job's own. -/
def Settled (decimal : Decimal) (kind : AssetCode) (job : String) (heard : List Message) : Prop :=
  ∀ before a after, announced kind heard = before ++ a :: after → Assigns kind job a →
    (∀ b ∈ after, ¬ Assigns kind job b) → ∀ d, latest after = some d →
      columns decimal kind d = columns decimal kind (inForce "1" (before ++ [a]))

section Difficulty

theorem inForce_append (d : String) (l l' : List Announcement) :
    inForce d (l ++ l') = inForce (inForce d l) l' := List.foldl_append

theorem foldl_getD (d : String) (o : Option String) (l : List Announcement) :
    inForce (o.getD d) l = (l.foldl (fun o a => a.difficulty.or o) o).getD d := by
  induction l generalizing o with
  | nil => rfl
  | cons a l ih =>
    rw [List.foldl_cons, ← ih]
    cases a with
    | mk job difficulty => cases difficulty <;> rfl

theorem inForce_eq_latest (d : String) (l : List Announcement) :
    inForce d l = (latest l).getD d := foldl_getD d none l

mutual

theorem inForce_jobsIn (d : String) : ∀ v : Json,
    inForce d (jobsIn v) = ((inspectJob v).map difficultyFromTarget).getD d
  | .null => rfl
  | .bool _ => rfl
  | .num _ => rfl
  | .str _ => rfl
  | .arr _ => rfl
  | .obj members => by
    have ih := inForce_jobsInside (((((Json.get? "target" (.obj members)).bind Json.string?).map
      difficultyFromTarget)).getD d) members
    simp only [jobsIn, inspectJob]
    apply ih.trans
    cases inspectInner members <;> simp

theorem inForce_jobsInside (d : String) : ∀ members : List (String × Json),
    inForce d (jobsInside members) = ((inspectInner members).map difficultyFromTarget).getD d
  | [] => rfl
  | (key, value) :: rest => by
    have hv := inForce_jobsIn d value
    have hr := inForce_jobsInside d rest
    simp only [jobsInside, inspectInner]
    split
    · exact hv
    · exact hr

end

theorem inForce_jobs (d : String) (v : Option Json) :
    inForce d ((v.map jobsIn).getD []) = ((v.bind inspectJob).map difficultyFromTarget).getD d := by
  cases v with
  | none => rfl
  | some v => exact inForce_jobsIn d v

theorem inForce_announcements (kind : AssetCode) (m : Message) (d : String) :
    inForce d (announcements kind m) = (announces kind m).getD d := by
  cases kind with
  | btc =>
    simp only [announcements, announces]
    split
    · rfl
    · split <;> rfl
  | xmr =>
    simp only [announcements, announces]
    rw [inForce_append, inForce_jobs, inForce_jobs]
    cases m.result.bind inspectJob <;> simp

theorem foldl_announces (kind : AssetCode) (heard : List Message) (d : String) :
    heard.foldl (fun d m => (announces kind m).getD d) d = inForce d (announced kind heard) := by
  induction heard generalizing d with
  | nil => rfl
  | cons m heard ih =>
    have hcons : announced kind (m :: heard) = announcements kind m ++ announced kind heard :=
      List.flatMap_cons
    rw [List.foldl_cons, ih, hcons, inForce_append, inForce_announcements]

theorem current_eq_inForce (kind : AssetCode) (heard : List Message) :
    current kind heard = inForce "1" (announced kind heard) := foldl_announces kind heard "1"

/-- The difficulty of the session is the job's exactly when nothing else was
announced last since the job. -/
theorem current_assigned_iff (decimal : Decimal) (kind : AssetCode) (job : String)
    (heard : List Message) :
    (∀ d, Assigned kind job heard d →
      columns decimal kind d = columns decimal kind (current kind heard)) ↔
      Settled decimal kind job heard := by
  have hsplit : ∀ before a after, announced kind heard = before ++ a :: after →
      current kind heard = (latest after).getD (inForce "1" (before ++ [a])) := by
    intro before a after he
    rw [current_eq_inForce, he, ← inForce_eq_latest, ← inForce_append, List.append_assoc,
      List.singleton_append]
  constructor
  · intro h before a after he ha hlast d hd
    rw [h _ ⟨before, a, after, he, ha, hlast, rfl⟩, hsplit before a after he, hd, Option.getD_some]
  · rintro h d ⟨before, a, after, he, ha, hlast, rfl⟩
    rw [hsplit before a after he]
    cases hl : latest after with
    | none => rfl
    | some d => exact (h before a after he ha hlast d hl).symm

end Difficulty

theorem journaled_columns {decimal : Decimal} {kind : AssetCode} {l : List Observation}
    (hj : Justified (Justifies decimal kind) l) {s : Submit} {share : ShareEvent}
    (h : .journaled s share ∈ l) : Credited decimal kind share (current kind s.heard) := by
  obtain ⟨_, _, _, hread, _, ⟨q, hq, hd, hw⟩, _⟩ := hj.mem h
  rw [Credited, ← hread.difficulty, columns, hq, hd, hw, Option.map_some]

/-- A share is credited at the difficulty of the job that it names, if and only
if no other difficulty was announced last between that job and the submit. -/
theorem credited_at_job_difficulty_iff {decimal : Decimal} {kind : AssetCode} {g : Gateway}
    (hg : g.Fresh) {c : Config Gateway Call}
    (h : (gateway decimal kind).Run Steps (.idle g) c) {s : Submit} {share : ShareEvent}
    (hs : .journaled s share ∈ c.shared.log) :
    (∀ d, Assigned kind (jobIdOf kind s.received) s.heard d → Credited decimal kind share d) ↔
      Settled decimal kind (jobIdOf kind s.received) s.heard := by
  have hcurrent := journaled_columns (run_consistent hg h).justified hs
  rw [← current_assigned_iff, hcurrent]
  rfl

section Sample

def setDifficulty (d : String) : List (Action Call Reply Event) :=
  tells ⟨none, none, some (.str "mining.set_difficulty"), some (.arr [.num d]), none, none⟩ 1

def notify (job : String) : List (Action Call Reply Event) :=
  tells ⟨none, none, some (.str "mining.notify"), some (.arr [.str job]), none, none⟩ 1

/-- The shares with the jobs they name, what was announced before, and the
difficulty recorded. -/
def recorded (c : Config Gateway Call) : List (String × List Announcement × ℚ) :=
  c.shared.log.filterMap (fun
    | .journaled s share => some (jobIdOf .btc s.received, announced .btc s.heard, share.difficulty)
    | _ => none)

theorem journaled_of_recorded {c : Config Gateway Call} {job : String} {l : List Announcement}
    {q : ℚ} (h : recorded c = [(job, l, q)]) : ∃ s share, .journaled s share ∈ c.shared.log ∧
      jobIdOf .btc s.received = job ∧ announced .btc s.heard = l ∧ share.difficulty = q := by
  have hm : (job, l, q) ∈ recorded c := by simp [h]
  obtain ⟨o, ho, he⟩ := List.mem_filterMap.mp hm
  split at he
  · rename_i s share
    cases he
    exact ⟨s, share, ho, rfl, rfl, rfl⟩
  · cases he

theorem credited_at_job_difficulty_iff_sample : ∃ c, (gateway sampleDecimal .btc).Run Steps
    (.idle (sampleGateway .btc)) c ∧ ∃ s share, .journaled s share ∈ c.shared.log ∧
      share.difficulty = 8 ∧
      ((∀ d, Assigned .btc (jobIdOf .btc s.received) s.heard d →
        Credited sampleDecimal .btc share d) ↔
          Settled sampleDecimal .btc (jobIdOf .btc s.received) s.heard) := by
  obtain ⟨c, hc, hv⟩ := execAlone_sample .btc
    (login .btc ++ setDifficulty "8" ++ notify "A" ++ submits .btc "3" "A" 9 5) recorded
    [("A", [⟨none, some "8"⟩, ⟨some "A", none⟩], 8)] (by decide +kernel)
  obtain ⟨s, share, hs, _, _, hd⟩ := journaled_of_recorded hv
  exact ⟨c, hc, s, share, hs, hd, credited_at_job_difficulty_iff (sampleGateway_fresh .btc) hc hs⟩

/-- A share of a job of difficulty 8 comes in after the difficulty was raised to
16 for the jobs to come, and is recorded at 16. -/
theorem late_share_miscredited : ∃ c, (gateway sampleDecimal .btc).Run Steps
    (.idle (sampleGateway .btc)) c ∧ ∃ s share, .journaled s share ∈ c.shared.log ∧
      Assigned .btc (jobIdOf .btc s.received) s.heard "8" ∧ share.difficulty = 16 ∧
      ¬ Credited sampleDecimal .btc share "8" := by
  obtain ⟨c, hc, hv⟩ := execAlone_sample .btc
    (login .btc ++ setDifficulty "8" ++ notify "A" ++ setDifficulty "16" ++
      submits .btc "3" "A" 9 5) recorded
    [("A", [⟨none, some "8"⟩, ⟨some "A", none⟩, ⟨none, some "16"⟩], 16)] (by decide +kernel)
  obtain ⟨s, share, hs, hj, hl, hd⟩ := journaled_of_recorded hv
  refine ⟨c, hc, s, share, hs, ⟨[⟨none, some "8"⟩], ⟨some "A", none⟩, [⟨none, some "16"⟩], hl, ?_,
    ?_, by decide⟩, hd, ?_⟩
  · exact ⟨hj ▸ rfl, fun h => by cases h⟩
  · intro b hb hb'
    cases List.mem_singleton.mp hb
    exact absurd hb'.1 (by simp)
  · have height : (columns sampleDecimal .btc "8").map Prod.fst = some 8 := by decide +kernel
    intro hcredited
    rw [hcredited, Option.map_some, hd] at height
    exact absurd (Option.some.inj height) (by norm_num)

end Sample

end Bitmine.JobDifficulty
