import Bitmine.Lib.Await
import Bitmine.Lib.FixedWindow

namespace Bitmine.RateLimits

open Bitmine.Lib.Await Bitmine.Lib.FixedWindow

/-- The two limits per address, `checkRateLimit` and `autoProvisionRateOk`. -/
inductive Guard where
  | portal
  | autoProvision

namespace Guard

def keyspace : Guard → String
  | .portal => "portal:attempt:"
  | .autoProvision => "gateway:autoprovision:"

def seconds : Guard → ℕ
  | .portal => 60
  | .autoProvision => 3600

end Guard

structure Config where
  maxPerIpPerHour : ℕ
  sha256 : String → String

variable (cfg : Config)

def Config.limit : Guard → ℕ
  | .portal => 10
  | .autoProvision => cfg.maxPerIpPerHour

def Config.key (g : Guard) (remoteIp : String) : String := g.keyspace ++ cfg.sha256 remoteIp

/-- The portal throws beyond its limit, the gateway answers whether its limit is kept. -/
def Config.admits : Guard → ℕ → Bool
  | .portal, attempts => !(attempts > 10)
  | .autoProvision, attempts => attempts ≤ cfg.maxPerIpPerHour

inductive LimitCall where
  | connect (g : Guard) (remoteIp : String)
  | incr (g : Guard) (remoteIp : String)
  | expire (g : Guard) (remoteIp : String)

def LimitCall.entry : LimitCall → Bool
  | .connect _ _ => true
  | _ => false

/-- Only the attempt that is counted as the first sets the expiry. -/
def effect (s : Counters String) (r : LimitCall) (_ : Unit) :
    Except String (Counters String × Option LimitCall) :=
  match r with
  | .connect g remoteIp => .ok (s, some (.incr g remoteIp))
  | .incr g remoteIp =>
    .ok (s.incr (cfg.key g remoteIp),
      if (s.bumped (cfg.key g remoteIp)).value = 1 then some (.expire g remoteIp) else none)
  | .expire g remoteIp => .ok (s.expire (cfg.key g remoteIp) (g.seconds * 1000), none)

def limiter : Machine (Counters String) LimitCall Unit ℕ :=
  ⟨LimitCall.entry, effect cfg, fun _ _ => none, fun _ r _ => r, Counters.tick⟩

def windowOf (key : String) : ℕ := if key.toList.head? = some 'p' then 60000 else 3600000

theorem windowOf_key (g : Guard) (remoteIp : String) :
    windowOf (cfg.key g remoteIp) = g.seconds * 1000 := by
  cases g <;> simp [windowOf, Config.key, Guard.keyspace, Guard.seconds, String.toList_append]

theorem windowOf_pos (key : String) : 0 < windowOf key := by
  unfold windowOf
  split <;> omega

theorem admits_iff (g : Guard) (attempts : ℕ) : cfg.admits g attempts = true ↔ attempts ≤ cfg.limit g := by
  cases g <;> simp [Config.admits, Config.limit]

section Bound

theorem effect_separated {s s' : Counters String} {r : LimitCall} {o : Option LimitCall}
    (h : Separated windowOf s) (he : (limiter cfg).effect s r () = .ok (s', o)) :
    Separated windowOf s' := by
  cases r with
  | connect g remoteIp =>
    cases he
    exact h
  | incr g remoteIp =>
    cases he
    exact h.incr windowOf_pos _
  | expire g remoteIp =>
    cases he
    exact h.expire (windowOf_key cfg g remoteIp).le

theorem outline : Outline (limiter cfg) shared (fun _ _ _ => True) (fun _ _ => True)
    (Separated windowOf) (fun _ _ => True) (fun _ _ _ => True) :=
  .of_invariant (fun _ _ _ _ _ h he => effect_separated cfg h he) (fun _ ms h => h.tick ms)

/-- However the attempts and their commands interleave, fail or are cut off, of the attempts
that one address makes within any window at most twice the limit are let through. -/
theorem attempts_limited {clock : ℕ} {c : Lib.Await.Config (Counters String) LimitCall}
    (h : (limiter cfg).Reaches (.idle (.start clock)) c) (g : Guard) (remoteIp : String) (t : ℕ) :
    (c.shared.counted.filter (fun e => e.key = cfg.key g remoteIp ∧
      (t ≤ e.time ∧ e.time < t + g.seconds * 1000) ∧ cfg.admits g e.value)).length ≤
        2 * cfg.limit g := by
  have hc := (outline cfg).run (keyed_shared _) (Outline.idle (start_separated windowOf clock)) h.allowed
  have hwithin := hc.inv.within (cfg.key g remoteIp) (cfg.limit g) t
  rw [windowOf_key] at hwithin
  simpa only [admits_iff] using hwithin

def sampleConfig : Config := ⟨2, id⟩

def attempt (pid : ℕ) (g : Guard) (remoteIp : String) : List (Action LimitCall Unit ℕ) :=
  [.call pid (.connect g remoteIp), .resolve pid (), .resolve pid ()]

def burst : List (Action LimitCall Unit ℕ) :=
  (List.range 12).flatMap (fun pid => attempt pid .portal "10.0.0.1") ++ [.resolve 0 ()]

theorem attempts_limited_sample : ∃ c, (limiter sampleConfig).Reaches (.idle (.start 0)) c ∧
    c.shared.counted.length = 12 ∧
    (c.shared.counted.filter (fun e => e.key = sampleConfig.key .portal "10.0.0.1" ∧
      (0 ≤ e.time ∧ e.time < 0 + 60 * 1000) ∧ sampleConfig.admits .portal e.value)).length ≤ 2 * 10 := by
  have h : ((limiter sampleConfig).exec (.idle (.start 0)) burst).map
      (fun c => c.shared.counted.length) = some 12 := by decide +kernel
  obtain ⟨c, hc, hv⟩ := Option.map_eq_some_iff.mp h
  have hr := Machine.exec_reaches hc
  exact ⟨c, hr, hv, attempts_limited sampleConfig hr .portal "10.0.0.1" 0⟩

end Bound

section Lockout

/-- No attempt stands between the count and the expiry of the key. -/
def AtRest (c : Lib.Await.Config (Counters String) LimitCall) (key : String) : Prop :=
  ∀ pid g remoteIp, c.calls pid = some (.expire g remoteIp) → cfg.key g remoteIp ≠ key

/-- No command fails, and no process is cut off. -/
def Undisturbed (_ : Lib.Await.Config (Counters String) LimitCall) : Action LimitCall Unit ℕ → Prop
  | .reject _ _ | .rejectAfter _ _ _ | .stop _ => False
  | _ => True

/-- Every later attempt is counted above the value. -/
def LockedOut (c : Lib.Await.Config (Counters String) LimitCall) (key : String) (value : ℕ) : Prop :=
  ∀ c', (limiter cfg).Reaches c c' → ∀ e ∈ c'.shared.counted.drop c.shared.counted.length,
    e.key = key → value < e.value

/-- A counter counts at least one, and expires within its window if it expires. -/
def Bounded (s : Counters String) : Prop :=
  ∀ key counter, s.stored key = some counter →
    0 < counter.value ∧ ∀ x ∈ counter.expiresAt, x ≤ s.clock + windowOf key

theorem Bounded.tick {s : Counters String} (h : Bounded s) (ms : ℕ) : Bounded (s.tick ms) := by
  intro key counter hc
  obtain ⟨hpos, hexpiry⟩ := h key counter hc
  refine ⟨hpos, fun x hx => (hexpiry x hx).trans ?_⟩
  change s.clock + windowOf key ≤ s.clock + ms + windowOf key
  omega

theorem Bounded.put {s : Counters String} (h : Bounded s) {key : String} {counter : Counter}
    (hpos : 0 < counter.value) (hexpiry : ∀ x ∈ counter.expiresAt, x ≤ s.clock + windowOf key) :
    Bounded (s.put key counter) := by
  intro k counter' hc
  change Function.update s.stored key (some counter) k = some counter' at hc
  by_cases hk : k = key
  · subst hk
    rw [Function.update_self] at hc
    cases hc
    exact ⟨hpos, hexpiry⟩
  · rw [Function.update_of_ne hk] at hc
    exact h k counter' hc

theorem bumped_expiry {s : Counters String} (h : Bounded s) (key : String) :
    ∀ x ∈ (s.bumped key).expiresAt, x ≤ s.clock + windowOf key := by
  cases hl : s.live key with
  | none =>
    rw [bumped_of_none hl]
    intro x hx
    cases hx
  | some counter =>
    rw [bumped_of_live hl]
    exact (h key counter (live_eq_some.mp hl).1).2

theorem effect_bounded {s s' : Counters String} {r : LimitCall} {o : Option LimitCall}
    (h : Bounded s) (he : (limiter cfg).effect s r () = .ok (s', o)) : Bounded s' := by
  cases r with
  | connect g remoteIp =>
    cases he
    exact h
  | incr g remoteIp =>
    cases he
    exact h.put bumped_pos (bumped_expiry h _)
  | expire g remoteIp =>
    cases he
    unfold Counters.expire
    split
    · rename_i counter hl
      refine h.put (h _ counter (live_eq_some.mp hl).1).1 ?_
      rintro x ⟨⟩
      rw [windowOf_key]
    · exact h

theorem bounded_outline : Outline (limiter cfg) shared (fun _ _ _ => True) (fun _ _ => True)
    Bounded (fun _ _ => True) (fun _ _ _ => True) :=
  .of_invariant (fun _ _ _ _ _ h he => effect_bounded cfg h he) (fun _ ms h => h.tick ms)

def Attended (c : Lib.Await.Config (Counters String) LimitCall) : Prop :=
  ∀ key counter, c.shared.stored key = some counter → counter.expiresAt = none →
    ∃ pid g remoteIp, c.calls pid = some (.expire g remoteIp) ∧ cfg.key g remoteIp = key

/-- A process that goes on with a store in which the counters of other keys stand as before. -/
theorem Attended.resolve {c : Lib.Await.Config (Counters String) LimitCall} (h : Attended cfg c)
    {pid : ℕ} {r : LimitCall} (hr : c.calls pid = some r) {s : Counters String} {o : Option LimitCall}
    (he : (limiter cfg).effect c.shared r () = .ok (s, o)) : Attended cfg (c.put s pid o) := by
  -- whoever attends to a key is another process, or has just attended to it
  have hother : ∀ key, (∀ g remoteIp, r = .expire g remoteIp → cfg.key g remoteIp ≠ key) →
      (∃ q g remoteIp, c.calls q = some (.expire g remoteIp) ∧ cfg.key g remoteIp = key) →
      ∃ q g remoteIp, (c.put s pid o).calls q = some (.expire g remoteIp) ∧ cfg.key g remoteIp = key := by
    rintro key hne ⟨q, g, remoteIp, hq, hkey⟩
    have hqp : q ≠ pid := by
      rintro rfl
      rw [hr] at hq
      exact hne g remoteIp (Option.some.inj hq) hkey
    exact ⟨q, g, remoteIp, by simpa [Config.put, Function.update_of_ne hqp] using hq, hkey⟩
  cases r with
  | connect g remoteIp =>
    cases he
    intro key counter hc hnone
    exact hother key (by simp) (h key counter hc hnone)
  | incr g remoteIp =>
    cases he
    intro key counter hc hnone
    change Function.update c.shared.stored (cfg.key g remoteIp)
      (some (c.shared.bumped (cfg.key g remoteIp))) key = some counter at hc
    by_cases hkey : key = cfg.key g remoteIp
    · subst hkey
      rw [Function.update_self] at hc
      cases hc
      cases hl : c.shared.live (cfg.key g remoteIp) with
      | none =>
        refine ⟨pid, g, remoteIp, ?_, rfl⟩
        rw [bumped_of_none hl]
        simp [Config.put]
      | some counter =>
        rw [bumped_of_live hl] at hnone
        exact hother _ (by simp) (h _ counter (live_eq_some.mp hl).1 hnone)
    · rw [Function.update_of_ne hkey] at hc
      exact hother key (by simp) (h key counter hc hnone)
  | expire g remoteIp =>
    cases he
    intro key counter hc hnone
    have hne : cfg.key g remoteIp ≠ key ∧ c.shared.stored key = some counter := by
      change (c.shared.expire (cfg.key g remoteIp) (g.seconds * 1000)).stored key = some counter at hc
      unfold Counters.expire at hc
      split at hc
      · change Function.update c.shared.stored (cfg.key g remoteIp) _ key = some counter at hc
        by_cases hkey : key = cfg.key g remoteIp
        · subst hkey
          rw [Function.update_self] at hc
          cases hc
          cases hnone
        · rw [Function.update_of_ne hkey] at hc
          exact ⟨Ne.symm hkey, hc⟩
      · rename_i hl
        refine ⟨?_, hc⟩
        rintro rfl
        obtain ⟨x, hx, _⟩ := live_eq_none hl hc
        rw [hnone] at hx
        cases hx
    refine hother key ?_ (h key counter hne.2 hnone)
    rintro g' remoteIp' ⟨⟩
    exact hne.1

theorem next_attended {c d : Lib.Await.Config (Counters String) LimitCall}
    {act : Action LimitCall Unit ℕ} (h : Attended cfg c) (hok : Undisturbed c act)
    (hn : (limiter cfg).next c act = some d) : Attended cfg d := by
  have hput : ∀ (pid : ℕ) (r : LimitCall), c.calls pid = none → Attended cfg (c.put c.shared pid (some r)) := by
    intro pid r hpid key counter hc hnone
    obtain ⟨q, g, remoteIp, hq, hkey⟩ := h key counter hc hnone
    have hqp : q ≠ pid := by
      rintro rfl
      rw [hpid] at hq
      cases hq
    exact ⟨q, g, remoteIp, by simpa [Config.put, Function.update_of_ne hqp] using hq, hkey⟩
  cases act with
  | event ms =>
    cases hn
    exact h
  | call pid r =>
    simp only [Machine.next, Bool.and_eq_true, Option.isNone_iff_eq_none] at hn
    split at hn
    · rename_i hcall
      cases hn
      exact hput pid r hcall.2
    · cases hn
  | resolve pid a =>
    obtain ⟨r, hr, rfl⟩ := Option.map_eq_some_iff.mp hn
    split
    · rename_i s o he
      exact h.resolve cfg hr he
    · rename_i e he
      cases r <;> cases he
  | background pid b =>
    obtain ⟨r, hr, rfl⟩ := Option.map_eq_some_iff.mp hn
    intro key counter hc hnone
    obtain ⟨q, g, remoteIp, hq, hkey⟩ := h key counter hc hnone
    refine ⟨q, g, remoteIp, ?_, hkey⟩
    by_cases hqp : q = pid
    · subst hqp
      rw [hq] at hr
      cases hr
      simp [Config.put, limiter]
    · simpa [Config.put, Function.update_of_ne hqp] using hq
  | reject | rejectAfter | stop => exact absurd hok id

/-- The counter of the key goes on for ever, and counts above the value. -/
structure Stuck (key : String) (value : ℕ) (old : List (Count String))
    (c : Lib.Await.Config (Counters String) LimitCall) : Prop where
  stored : ∃ counter, c.shared.stored key = some counter ∧ counter.expiresAt = none ∧
    0 < counter.value ∧ value ≤ counter.value
  rest : AtRest cfg c key
  counted : ∃ new, c.shared.counted = old ++ new ∧ ∀ e ∈ new, e.key = key → value < e.value

section Steps

variable {key : String} {value : ℕ} {old : List (Count String)}
  {c : Lib.Await.Config (Counters String) LimitCall}

/-- A process that goes on, to an await that is not the expiry of the key. -/
theorem Stuck.put (h : Stuck cfg key value old c) {pid : ℕ} {s : Counters String} {o : Option LimitCall}
    (hstored : ∃ counter, s.stored key = some counter ∧ counter.expiresAt = none ∧
      0 < counter.value ∧ value ≤ counter.value)
    (hcounted : ∃ new, s.counted = c.shared.counted ++ new ∧ ∀ e ∈ new, e.key = key → value < e.value)
    (ho : ∀ g remoteIp, o = some (.expire g remoteIp) → cfg.key g remoteIp ≠ key) :
    Stuck cfg key value old (c.put s pid o) where
  stored := hstored
  rest := by
    intro q g remoteIp hq
    by_cases hqp : q = pid
    · subst hqp
      simp only [Config.put, Function.update_self] at hq
      exact ho g remoteIp hq
    · simp only [Config.put, Function.update_of_ne hqp] at hq
      exact h.rest q g remoteIp hq
  counted := by
    obtain ⟨new, hnew, hall⟩ := h.counted
    obtain ⟨more, hmore, hall'⟩ := hcounted
    refine ⟨new ++ more, by rw [← List.append_assoc, ← hnew]; exact hmore, ?_⟩
    intro e he
    obtain he | he := List.mem_append.mp he
    · exact hall e he
    · exact hall' e he

theorem Stuck.effect (h : Stuck cfg key value old c) {pid : ℕ} {r : LimitCall}
    (hr : c.calls pid = some r) {s : Counters String} {o : Option LimitCall}
    (he : (limiter cfg).effect c.shared r () = .ok (s, o)) : Stuck cfg key value old (c.put s pid o) := by
  obtain ⟨counter, hstored, hnone, hpos, hvalue⟩ := h.stored
  have hsame : ∃ new, c.shared.counted = c.shared.counted ++ new ∧
      ∀ e ∈ new, e.key = key → value < e.value := ⟨[], by simp, by simp⟩
  cases r with
  | connect g remoteIp =>
    cases he
    exact h.put cfg ⟨counter, hstored, hnone, hpos, hvalue⟩ hsame (by simp)
  | incr g remoteIp =>
    cases he
    by_cases hkey : cfg.key g remoteIp = key
    · have hlive : c.shared.live key = some counter :=
        live_eq_some.mpr ⟨hstored, by rw [hnone]; simp⟩
      have hbumped : c.shared.bumped key = { counter with value := counter.value + 1 } :=
        bumped_of_live hlive
      rw [hkey]
      refine h.put cfg ⟨_, Function.update_self .., ?_⟩ ⟨_, rfl, ?_⟩ ?_
      · rw [hbumped]
        exact ⟨hnone, Nat.succ_pos _, hvalue.trans (Nat.le_succ _)⟩
      · intro e he _
        rw [List.mem_singleton.mp he, hbumped]
        exact Nat.lt_succ_of_le hvalue
      · rw [hbumped]
        intro g' remoteIp' ho
        rw [if_neg (by dsimp only; omega)] at ho
        cases ho
    · refine h.put cfg ⟨counter, ?_, hnone, hpos, hvalue⟩ ⟨_, rfl, ?_⟩ ?_
      · rw [← hstored]
        exact Function.update_of_ne (Ne.symm hkey) _ _
      · intro e he hek
        rw [List.mem_singleton.mp he] at hek
        exact absurd hek hkey
      · intro g' remoteIp' ho
        split at ho
        · cases ho
          exact hkey
        · cases ho
  | expire g remoteIp =>
    cases he
    have hkey := h.rest pid g remoteIp hr
    refine h.put cfg ⟨counter, ?_, hnone, hpos, hvalue⟩ ?_ (by simp)
    · rw [← hstored]
      unfold Counters.expire
      split
      · exact Function.update_of_ne (Ne.symm hkey) _ _
      · rfl
    · unfold Counters.expire
      split <;> exact hsame

theorem next_stuck {d : Lib.Await.Config (Counters String) LimitCall} {act : Action LimitCall Unit ℕ}
    (h : Stuck cfg key value old c) (hn : (limiter cfg).next c act = some d) :
    Stuck cfg key value old d := by
  have hsame : ∃ new, c.shared.counted = c.shared.counted ++ new ∧
      ∀ e ∈ new, e.key = key → value < e.value := ⟨[], by simp, by simp⟩
  have hnone : ∀ pid, Stuck cfg key value old (c.put c.shared pid none) :=
    fun pid => h.put cfg h.stored hsame (by simp)
  obtain ⟨ms, rfl, rfl⟩ | ⟨pid, r, rfl, hentry, _, rfl⟩ | ⟨pid, r, a, s, o, _, hr, he, hd⟩ |
    ⟨pid, r, e, _, rfl⟩ | ⟨pid, r, b, rfl, hr, rfl⟩ | ⟨pid, rfl, rfl⟩ := Machine.next_cases hn
  · exact ⟨h.stored, h.rest, h.counted⟩
  · refine h.put cfg h.stored hsame ?_
    rintro g remoteIp ⟨⟩
    cases hentry
  · have hs := h.effect cfg hr he
    obtain rfl | ⟨e, rfl⟩ := hd
    · exact hs
    · have hgone : ∀ g remoteIp, (none : Option LimitCall) = some (.expire g remoteIp) →
          cfg.key g remoteIp ≠ key := by simp
      have hput : Stuck cfg key value old ((c.put s pid o).put s pid none) :=
        hs.put cfg hs.stored ⟨[], by simp [Config.put], by simp⟩ hgone
      simpa [Config.put, Function.update_idem, limiter] using hput
  · exact hnone pid
  · refine h.put cfg h.stored hsame ?_
    intro g remoteIp ho
    exact h.rest pid g remoteIp (hr.trans ho)
  · exact hnone pid

end Steps

theorem exists_idle {c d : Lib.Await.Config (Counters String) LimitCall}
    (h : (limiter cfg).Reaches c d) (hc : ∃ n, ∀ pid, n ≤ pid → c.calls pid = none) :
    ∃ n, ∀ pid, n ≤ pid → d.calls pid = none := by
  refine h.invariant (I := fun c => ∃ n, ∀ pid, n ≤ pid → c.calls pid = none) ?_ hc
  rintro c act d ⟨n, hn⟩ _ hnext
  have hput : ∀ pid s o, ∃ m, ∀ q, m ≤ q → (c.put s pid o).calls q = none := by
    intro pid s o
    refine ⟨max n (pid + 1), fun q hq => ?_⟩
    have hqp : q ≠ pid := by omega
    simp only [Config.put, Function.update_of_ne hqp]
    exact hn q (by omega)
  obtain ⟨ms, rfl, rfl⟩ | ⟨pid, r, rfl, _, _, rfl⟩ | ⟨pid, r, a, s, o, _, _, _, hd⟩ |
    ⟨pid, r, e, _, rfl⟩ | ⟨pid, r, b, rfl, _, rfl⟩ | ⟨pid, rfl, rfl⟩ := Machine.next_cases hnext
  · exact ⟨n, hn⟩
  · exact hput pid _ _
  · obtain rfl | ⟨e, rfl⟩ := hd <;> exact hput pid _ _
  · exact hput pid _ _
  · exact hput pid _ _
  · exact hput pid _ _

/-- After its expiry a counter starts afresh with the next attempt. -/
theorem counts_afresh {clock : ℕ} {c : Lib.Await.Config (Counters String) LimitCall}
    (h : (limiter cfg).Reaches (.idle (.start clock)) c) {g : Guard} {remoteIp : String}
    {counter : Counter} (hc : c.shared.stored (cfg.key g remoteIp) = some counter) {x : ℕ}
    (hx : x ∈ counter.expiresAt) : ∃ c', (limiter cfg).Reaches c c' ∧
      ∃ e ∈ c'.shared.counted.drop c.shared.counted.length, e.key = cfg.key g remoteIp ∧ e.value = 1 := by
  obtain ⟨n, hn⟩ := exists_idle cfg h ⟨0, fun _ _ => rfl⟩
  have hfree := hn n (le_refl n)
  have hlive : (c.shared.tick x).live (cfg.key g remoteIp) = none := by
    by_contra hne
    obtain ⟨counter', hl⟩ := Option.ne_none_iff_exists'.mp hne
    obtain ⟨hstored, hexpiry⟩ := live_eq_some.mp hl
    cases hc.symm.trans hstored
    have hlt := hexpiry x hx
    change c.shared.clock + x < x at hlt
    omega
  have hrun : (limiter cfg).exec c [.event x, .call n (.connect g remoteIp), .resolve n (), .resolve n ()] =
      some ⟨(c.shared.tick x).incr (cfg.key g remoteIp),
        Function.update c.calls n (some (.expire g remoteIp))⟩ := by
    simp [Machine.exec, Machine.next, limiter, LimitCall.entry, effect, Config.put, hfree,
      bumped_of_none hlive, Function.update_idem]
  refine ⟨_, Machine.exec_reaches hrun, ⟨cfg.key g remoteIp, c.shared.clock + x, 1, c.shared.clock + x⟩,
    ?_, rfl, rfl⟩
  simp only [Counters.incr, bumped_of_none hlive]
  change _ ∈ (c.shared.counted ++ [_]).drop c.shared.counted.length
  rw [List.drop_left, List.mem_singleton]
  rfl

/-- Nobody is locked out unless an attempt was cut off between its two commands. When no
attempt on the key of an address is under way, its counter expires within the window if
nothing was cut off; and if it never expires, and only then, every later attempt of the
address is counted above what the counter holds, so that beyond the limit the address is
refused for ever. -/
theorem locked_out_iff_expiry_lost {clock : ℕ} {c : Lib.Await.Config (Counters String) LimitCall}
    (h : (limiter cfg).Reaches (.idle (.start clock)) c) {g : Guard} {remoteIp : String}
    (hrest : AtRest cfg c (cfg.key g remoteIp)) {counter : Counter}
    (hc : c.shared.stored (cfg.key g remoteIp) = some counter) :
    ((limiter cfg).Run Undisturbed (.idle (.start clock)) c →
      ∃ x ∈ counter.expiresAt, x ≤ c.shared.clock + g.seconds * 1000) ∧
    (counter.expiresAt = none ↔ LockedOut cfg c (cfg.key g remoteIp) counter.value) := by
  have hbounded := ((bounded_outline cfg).run (keyed_shared _)
    (Outline.idle (s := Counters.start clock) (by rintro _ _ ⟨⟩)) h.allowed).inv
  obtain ⟨hpos, hexpiry⟩ := hbounded _ counter hc
  refine ⟨?_, ?_, ?_⟩
  · intro hclean
    have hattended : Attended cfg c :=
      hclean.invariant (fun c act d hi hok hn => next_attended cfg hi hok hn) (by rintro _ _ ⟨⟩)
    cases hx : counter.expiresAt with
    | none =>
      obtain ⟨pid, g', remoteIp', hcall, hkey⟩ := hattended _ counter hc hx
      exact absurd hkey (hrest pid g' remoteIp' hcall)
    | some x =>
      refine ⟨x, rfl, ?_⟩
      rw [← windowOf_key cfg g remoteIp]
      exact hexpiry x hx
  · intro hnone c' h'
    have hstart : Stuck cfg (cfg.key g remoteIp) counter.value c.shared.counted c :=
      ⟨⟨counter, hc, hnone, hpos, le_refl _⟩, hrest, [], by simp, by simp⟩
    have hstuck : Stuck cfg (cfg.key g remoteIp) counter.value c.shared.counted c' :=
      h'.invariant (fun c act d hi _ hn => next_stuck cfg hi hn) hstart
    obtain ⟨new, hnew, hall⟩ := hstuck.counted
    intro e he hkey
    rw [hnew, List.drop_left] at he
    exact hall e he hkey
  · intro hlocked
    by_contra hne
    obtain ⟨x, hx⟩ := Option.ne_none_iff_exists'.mp hne
    obtain ⟨c', h', e, he, hkey, hone⟩ := counts_afresh cfg h hc hx
    have hlt := hlocked c' h' e he hkey
    omega

def cutOff : List (Action LimitCall Unit ℕ) := attempt 0 .portal "10.0.0.1" ++ [.stop 0]

theorem locked_out_iff_expiry_lost_sample : ∃ c, (limiter sampleConfig).Reaches (.idle (.start 0)) c ∧
    LockedOut sampleConfig c (sampleConfig.key .portal "10.0.0.1") 1 := by
  have h : ((limiter sampleConfig).exec (.idle (.start 0)) cutOff).map (fun c =>
      (c.calls 0, c.shared.stored (sampleConfig.key .portal "10.0.0.1"))) =
      some (none, some ⟨1, none, 0⟩) := by rfl
  obtain ⟨c, hc, hv⟩ := Option.map_eq_some_iff.mp h
  have hr := Machine.exec_reaches hc
  have hidle : ∀ pid, c.calls pid = none := by
    intro pid
    by_cases hpid : pid = 0
    · rw [hpid]
      exact (Prod.mk.inj hv).1
    · have hfirst : ((Counters.start 0).bumped (sampleConfig.key .portal "10.0.0.1")).value = 1 := rfl
      have hcalls : ((limiter sampleConfig).exec (.idle (.start 0)) cutOff).map (fun c => c.calls pid) =
          some none := by
        simp [Machine.exec, Machine.next, cutOff, attempt, limiter, effect, LimitCall.entry, Config.put,
          Config.idle, hfirst]
      rw [hc] at hcalls
      exact Option.some.inj hcalls
  refine ⟨c, hr, ((locked_out_iff_expiry_lost sampleConfig hr ?_ (Prod.mk.inj hv).2).2).mp rfl⟩
  intro pid g remoteIp hcall
  rw [hidle pid] at hcall
  cases hcall

end Lockout

end Bitmine.RateLimits
