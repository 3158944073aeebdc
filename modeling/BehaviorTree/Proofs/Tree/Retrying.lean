import BehaviorTree.Proofs.Tree.Conclusion
import Mathlib.Algebra.Group.Int.Defs
import Mathlib.Algebra.Group.Nat.Defs

/-!
# How a retry node retries

A retry node executes its child until an attempt does not fail or all attempts are made, and it
sleeps between two attempts, for a fixed time or for one that doubles up to the longest there is
(`Retry.attempts_and_sleeps`).
-/

namespace BehaviorTree.Retry

open Journal Machine

variable {κ : Type} [Application κ] (settings : RetrySettings) (statuses : Nat → Status)

/-! ## Waiting times -/

/-- The waiting time after a failed attempt: the fixed one, or the exact product with a power of
two, cut off at the greatest 64-bit number. -/
def delay (number : Nat) : Nat :=
  if settings.exponential then
    min (settings.backoff.toNat * 2 ^ (number - 1)) (2 ^ 64 - 1)
  else settings.backoff.toNat

/-- A factor may be cut off before it is multiplied. -/
theorem min_mul_min (base factor greatest : Nat) :
    min (base * min factor greatest) greatest = min (base * factor) greatest := by
  rcases Nat.le_total factor greatest with hfactor | hfactor
  · rw [Nat.min_eq_left hfactor]
  · rw [Nat.min_eq_right hfactor]
    rcases Nat.eq_zero_or_pos base with rfl | hbase
    · rw [Nat.zero_mul, Nat.zero_mul]
    · have hleast : greatest ≤ base * greatest := Nat.le_mul_of_pos_left greatest hbase
      have hproduct : base * greatest ≤ base * factor := Nat.mul_le_mul_left base hfactor
      rw [Nat.min_eq_right hleast, Nat.min_eq_right (Nat.le_trans hleast hproduct)]

/-- Sixty-four doublings exceed the longest waiting time. -/
theorem min_two_pow_min (exponent : Nat) :
    min (2 ^ min exponent 64) (2 ^ 64 - 1) = min (2 ^ exponent) (2 ^ 64 - 1) := by
  rcases Nat.le_total exponent 64 with hexponent | hexponent
  · rw [Nat.min_eq_left hexponent]
  · have hpower : 2 ^ 64 ≤ 2 ^ exponent := Nat.pow_le_pow_right (by decide) hexponent
    rw [Nat.min_eq_right hexponent, Nat.min_eq_right (Nat.sub_le _ _),
      Nat.min_eq_right (Nat.le_trans (Nat.sub_le _ _) hpower)]

/-- The waiting time that the node computes step by step is the product, cut off. -/
theorem backoff_eq_delay (number : Nat) : backoff settings number = delay settings number := by
  rw [backoff, delay]
  split
  · have hcut : min (settings.backoff.toNat * 2 ^ min (number - 1) 64) (2 ^ 64 - 1) =
        min (settings.backoff.toNat * 2 ^ (number - 1)) (2 ^ 64 - 1) := by
      rw [← min_mul_min, min_two_pow_min, min_mul_min]
    exact hcut
  · rfl

/-- The power may be cut off before it is multiplied. -/
theorem delay_eq_saturated (number : Nat) :
    delay settings number =
      if settings.exponential then
        min (settings.backoff.toNat * min (2 ^ (number - 1)) (2 ^ 64 - 1)) (2 ^ 64 - 1)
      else settings.backoff.toNat := by
  rw [delay, min_mul_min]

/-- A waiting time fits into 64 bits. -/
theorem delay_lt (hbackoff : settings.backoff < 2 ^ 31) (number : Nat) :
    delay settings number < 2 ^ 64 := by
  rw [delay]
  split
  · exact Nat.lt_of_le_of_lt (Nat.min_le_right _ _) (by decide)
  · omega

/-! ## The course of an execution -/

/-- An attempt and the sleep after it, if it fails and is not the last one. -/
def exchangesOf (number : Nat) : List Exchange :=
  ⟨.run number 0, .answered number (statuses number)⟩ ::
    if statuses number = .failure ∧ (number : Int) ≠ settings.maxRetries then
      [⟨.sleep number (delay settings number), .woken number⟩]
    else []

/-- The course of an execution with so many attempts. -/
def course (count : Nat) : List Exchange :=
  (List.range' 1 count).flatMap (exchangesOf settings statuses)

/-- The child answers the statuses in order, beginning with the one for an attempt. -/
def Follows (number : Nat) (executions : List Execution) : Prop :=
  executions.map (·.status) = (List.range' number executions.length).map statuses

variable {settings statuses} {number count : Nat} {executions : List Execution}
  {exchanges : List Exchange} {last : Unit} {status : Status} {size : Nat}

/-- A child that follows the statuses answers the first of them and then follows the rest. -/
theorem follows_cons {child : Nat} :
    Follows statuses number (⟨child, status⟩ :: executions) ↔
      status = statuses number ∧ Follows statuses (number + 1) executions := by
  rw [Follows, Follows, List.length_cons, List.range'_succ]
  simp

/-- The machine of a retry node keeps nothing. -/
abbrev machine (settings : RetrySettings) : Machine Unit :=
  fun moment _ signal => respond settings moment signal

/-- What can follow when an attempt is due, if the child answers these statuses. -/
def Goes (settings : RetrySettings) (statuses : Nat → Status) (size number : Nat)
    (exchanges : List Exchange) (status : Status) : Prop :=
  (∃ name last, (machine settings).Continues size (attempt settings name number) exchanges last
      (.finish status)) ∧
    Follows statuses number (exchanges.filterMap Exchange.execution?)

/-- While attempts are left, the node runs its child. -/
theorem attempt_of_le (hleft : (number : Int) ≤ settings.maxRetries) (name : String) :
    attempt settings name number = .ask () (.run number 0) := if_pos hleft

/-- When no attempt is left, the node reports that and answers failure. -/
theorem attempt_of_lt (hnone : settings.maxRetries < number) (name : String) :
    attempt settings name number =
      .report () (.retriesExhausted name settings.maxRetries) .failure :=
  if_neg (Int.not_le.mpr hnone)

/-- After a failed attempt that is not the last one the node sleeps. -/
theorem respond_failed (hleft : (number : Int) < settings.maxRetries) (moment : Moment) :
    respond settings moment (.answered number .failure) =
      .ask () (.sleep number (delay settings number)) := by
  rw [respond, if_pos hleft, backoff_eq_delay]

/-- When no attempt is left, the node answers failure and nothing happens. -/
theorem goes_done (hnone : settings.maxRetries < number) :
    Goes settings statuses size number exchanges status ↔ exchanges = [] ∧ status = .failure := by
  constructor
  · rintro ⟨⟨name, last, hcontinues⟩, -⟩
    rw [attempt_of_lt hnone] at hcontinues
    obtain ⟨hexchanges, -, hstatus⟩ := (continues_finish_iff rfl).mp hcontinues
    exact ⟨hexchanges, hstatus⟩
  · rintro ⟨rfl, rfl⟩
    refine ⟨⟨"", (), ?_⟩, rfl⟩
    rw [attempt_of_lt hnone]
    exact (continues_finish_iff rfl).mpr ⟨rfl, rfl, rfl⟩

/-- While attempts are left, the node makes one and goes on with the answer of its child. -/
theorem goes_attempt (hleft : (number : Int) ≤ settings.maxRetries) :
    Goes settings statuses size number exchanges status ↔
      ∃ rest, exchanges = ⟨.run number 0, .answered number (statuses number)⟩ :: rest ∧
        (∃ last, (machine settings).Talks size () (.answered number (statuses number)) rest last
          (.finish status)) ∧
        Follows statuses (number + 1) (rest.filterMap Exchange.execution?) := by
  constructor
  · rintro ⟨⟨name, last, hcontinues⟩, hfollows⟩
    rw [attempt_of_le hleft] at hcontinues
    obtain ⟨answer, rest, rfl, hanswer, htalks⟩ := (continues_ask_iff rfl).mp hcontinues
    cases hanswer with
    | run _ _ answer =>
      have hexecutions : Follows statuses number
          (⟨0, answer⟩ :: rest.filterMap Exchange.execution?) := hfollows
      obtain ⟨rfl, hrest⟩ := follows_cons.mp hexecutions
      exact ⟨rest, rfl, ⟨last, htalks⟩, hrest⟩
  · rintro ⟨rest, rfl, ⟨last, htalks⟩, hfollows⟩
    have hexecutions : Follows statuses number
        (⟨0, statuses number⟩ :: rest.filterMap Exchange.execution?) :=
      follows_cons.mpr ⟨rfl, hfollows⟩
    refine ⟨⟨"", last, ?_⟩, hexecutions⟩
    rw [attempt_of_le hleft]
    exact .answered (.run number 0 _) htalks

/-- After a failed attempt that is not the last one the node sleeps and goes on with the next. -/
theorem goes_failed (hleft : (number : Int) < settings.maxRetries)
    (hfailed : statuses number = .failure) :
    Goes settings statuses size number exchanges status ↔
      ∃ rest, exchanges = exchangesOf settings statuses number ++ rest ∧
        Goes settings statuses size (number + 1) rest status := by
  have hexchanges : exchangesOf settings statuses number =
      [⟨.run number 0, .answered number .failure⟩,
        ⟨.sleep number (delay settings number), .woken number⟩] := by
    rw [exchangesOf, if_pos ⟨hfailed, Int.ne_of_lt hleft⟩, hfailed]
  rw [goes_attempt (Int.le_of_lt hleft), hexchanges, hfailed]
  constructor
  · rintro ⟨rest, rfl, ⟨last, htalks⟩, hfollows⟩
    obtain ⟨moment, -, hcontinues⟩ := talks_iff.mp htalks
    rw [machine, respond_failed hleft] at hcontinues
    obtain ⟨answer, rest, rfl, hanswer, htalks⟩ := (continues_ask_iff rfl).mp hcontinues
    cases hanswer with
    | sleep _ _ =>
      obtain ⟨moment, -, hcontinues⟩ := talks_iff.mp htalks
      exact ⟨rest, rfl, ⟨moment.name, last, hcontinues⟩, hfollows⟩
  · rintro ⟨rest, rfl, ⟨name, last, hcontinues⟩, hfollows⟩
    refine ⟨_, rfl, ⟨last, talks_iff.mpr ⟨⟨name, size, 0, {}⟩, rfl, ?_⟩⟩, hfollows⟩
    rw [machine, respond_failed hleft]
    exact .answered (.sleep number _) (talks_iff.mpr ⟨⟨name, size, 0, {}⟩, rfl, hcontinues⟩)

/-- The last attempt, because there are no more or it does not fail. -/
theorem goes_last (hleft : (number : Int) ≤ settings.maxRetries)
    (hlast : statuses number = .failure → (number : Int) = settings.maxRetries) :
    Goes settings statuses size number exchanges status ↔
      exchanges = exchangesOf settings statuses number ∧ status = statuses number := by
  have hexchanges : exchangesOf settings statuses number =
      [⟨.run number 0, .answered number (statuses number)⟩] := by
    rw [exchangesOf, if_neg fun hfailed => hfailed.2 (hlast hfailed.1)]
  have hrespond : ∀ moment,
      (respond settings moment (.answered number (statuses number))).request =
        .finish (statuses number) := by
    intro moment
    by_cases hfailed : statuses number = .failure
    · have hnone : ¬ (number : Int) < settings.maxRetries := by
        rw [hlast hfailed]
        exact Int.lt_irrefl _
      rw [hfailed, respond, if_neg hnone, attempt_of_lt (by omega)]
      rfl
    · rw [respond]
      · rfl
      · exact hfailed
  rw [goes_attempt hleft, hexchanges]
  constructor
  · rintro ⟨rest, rfl, ⟨last, htalks⟩, -⟩
    obtain ⟨moment, -, hcontinues⟩ := talks_iff.mp htalks
    obtain ⟨rfl, -, hstatus⟩ := (continues_finish_iff (hrespond moment)).mp hcontinues
    exact ⟨rfl, hstatus⟩
  · rintro ⟨rfl, rfl⟩
    refine ⟨[], rfl, ⟨(), talks_iff.mpr ⟨⟨"", size, 0, {}⟩, rfl, ?_⟩⟩, rfl⟩
    exact (continues_finish_iff (hrespond _)).mpr ⟨rfl, rfl, rfl⟩

/-- After several failed attempts the node goes on with the attempt that follows them. -/
theorem goes_allFailed (number count : Nat) (exchanges : List Exchange)
    (hleft : (number + count : Int) ≤ settings.maxRetries)
    (hfailed : ∀ earlier, number ≤ earlier → earlier < number + count →
      statuses earlier = .failure) :
    Goes settings statuses size number exchanges status ↔
      ∃ rest, exchanges =
          (List.range' number count).flatMap (exchangesOf settings statuses) ++ rest ∧
        Goes settings statuses size (number + count) rest status := by
  induction count generalizing number exchanges with
  | zero => simp
  | succ count ih =>
    have hmore := fun rest => ih (number + 1) rest (by omega)
      fun earlier hfirst hlast => hfailed earlier (by omega) (by omega)
    have hposition : number + 1 + count = number + (count + 1) := by omega
    rw [goes_failed (by omega) (hfailed number (Nat.le_refl number) (by omega)), List.range'_succ,
      List.flatMap_cons]
    simp only [hmore, hposition, List.append_assoc]
    constructor
    · rintro ⟨_, rfl, rest, rfl, hgoes⟩
      exact ⟨rest, rfl, hgoes⟩
    · rintro ⟨rest, rfl, hgoes⟩
      exact ⟨_, rfl, rest, rfl, hgoes⟩

/-- An execution begins with the first attempt. -/
theorem talks_started_iff (hsize : size ≠ 0) :
    (∃ last, (machine settings).Talks size () .started exchanges last (.finish status)) ∧
        Follows statuses 1 (exchanges.filterMap Exchange.execution?) ↔
      Goes settings statuses size 1 exchanges status := by
  refine and_congr_left fun _ => ?_
  constructor
  · rintro ⟨last, htalks⟩
    obtain ⟨moment, rfl, hcontinues⟩ := talks_iff.mp htalks
    rw [machine, respond, if_neg hsize] at hcontinues
    exact ⟨moment.name, last, hcontinues⟩
  · rintro ⟨name, last, hcontinues⟩
    refine ⟨last, talks_iff.mpr ⟨⟨name, size, 0, {}⟩, rfl, ?_⟩⟩
    rw [machine, respond, if_neg hsize]
    exact hcontinues

/-- All attempts before the last one fail, and that is the last one because it does not fail or
because there are no more. -/
theorem goes_course (hleft : (count + 1 : Int) ≤ settings.maxRetries)
    (hfailed : ∀ number, 1 ≤ number → number < count + 1 → statuses number = .failure)
    (hlast : statuses (count + 1) = .failure → (count + 1 : Int) = settings.maxRetries) :
    Goes settings statuses size 1 exchanges status ↔
      exchanges = course settings statuses (count + 1) ∧ status = statuses (count + 1) := by
  have hposition : 1 + count = count + 1 := Nat.add_comm 1 count
  rw [goes_allFailed 1 count exchanges (by omega) (by rwa [hposition]), hposition, course,
    List.range'_1_concat, List.flatMap_append, List.flatMap_singleton, hposition]
  have hleft' : ((count + 1 : Nat) : Int) ≤ settings.maxRetries := by exact_mod_cast hleft
  have hlast' : statuses (count + 1) = .failure →
      ((count + 1 : Nat) : Int) = settings.maxRetries := by exact_mod_cast hlast
  simp only [goes_last hleft' hlast']
  constructor
  · rintro ⟨_, rfl, rfl, hstatus⟩
    exact ⟨rfl, hstatus⟩
  · rintro ⟨rfl, hstatus⟩
    exact ⟨_, rfl, rfl, hstatus⟩

/-! ## Executions of a retry node -/

/-- A retry node with its only child. -/
abbrev nodeOf (settings : RetrySettings) (name : String) (child : Tree κ) : Tree κ :=
  ⟨name, .retry settings, [child]⟩

/-- What the node asks for when it hears a signal. -/
inductive Asks (settings : RetrySettings) : Signal → Request → Prop where
  | first (hleft : 1 ≤ settings.maxRetries) : Asks settings .started (.run 1 0)
  | next (number : Nat) (hleft : (number + 1 : Int) ≤ settings.maxRetries) :
    Asks settings (.woken number) (.run (number + 1) 0)
  | sleep (number duration : Nat) (hleft : (number : Int) < settings.maxRetries) :
    Asks settings (.answered number .failure) (.sleep number duration)
  | finish (signal : Signal) (status : Status)
      (hrunning : status = .running → ∃ number, signal = .answered number .running) :
    Asks settings signal (.finish status)

/-- The node asks for what its attempts allow. -/
theorem asks_respond (settings : RetrySettings) (moment : Moment) (signal : Signal) :
    Asks settings signal (respond settings moment signal).request := by
  have hattempt : ∀ signal name (number : Nat),
      ((number : Int) ≤ settings.maxRetries → Asks settings signal (.run number 0)) →
        Asks settings signal (attempt settings name number).request := by
    intro signal name number hrun
    by_cases hleft : (number : Int) ≤ settings.maxRetries
    · rw [attempt_of_le hleft]
      exact hrun hleft
    · rw [attempt_of_lt (Int.not_le.mp hleft)]
      exact .finish signal .failure nofun
  cases signal with
  | started =>
    rw [respond]
    split
    · exact .finish _ .failure nofun
    · exact hattempt _ _ 1 .first
  | answered number status =>
    cases status with
    | running => exact .finish _ .running fun _ => ⟨number, rfl⟩
    | success => exact .finish _ .success nofun
    | failure =>
      rw [respond]
      split
      · next hleft => exact .sleep number _ hleft
      · next hnone => exact hattempt _ _ (number + 1) fun hleft => absurd hleft (by omega)
  | woken number =>
    exact hattempt _ _ (number + 1) fun hleft => .next number (by exact_mod_cast hleft)
  | _ => exact .finish _ .failure nofun

/-- The node runs its child one at a time. -/
theorem isPlain_machine (settings : RetrySettings) : (machine settings).IsPlain 1 := by
  intro moment state signal hsize
  have hasks := asks_respond settings moment signal
  rw [machine]
  generalize (respond settings moment signal).request = request at hasks ⊢
  cases hasks with
  | first hleft => exact Nat.one_pos
  | next number hleft => exact Nat.one_pos
  | sleep number duration hleft => trivial
  | finish signal status hrunning => trivial

/-- The node never crashes. -/
theorem respond_ne_crash (settings : RetrySettings) (moment : Moment) (signal : Signal) :
    (respond settings moment signal).request ≠ .crash := by
  intro hcrash
  have hasks := asks_respond settings moment signal
  rw [hcrash] at hasks
  cases hasks

/-- How many requests can be answered from then on. -/
def answersLeft (settings : RetrySettings) : Signal → Nat
  | .started => 2 * settings.maxRetries.toNat
  | .answered number _ => 2 * (settings.maxRetries.toNat - number)
  | .woken number => 2 * (settings.maxRetries.toNat - number) - 1
  | _ => 0

/-- Every answer to a request leaves fewer requests to be answered. -/
theorem answersLeft_lt {moment : Moment} {signal answer : Signal}
    (hanswer : (respond settings moment signal).request.AnsweredBy answer) :
    answersLeft settings answer < answersLeft settings signal := by
  have hasks := asks_respond settings moment signal
  generalize (respond settings moment signal).request = request at hanswer hasks
  cases hasks with
  | first hleft =>
    cases hanswer
    simp only [answersLeft]
    omega
  | next number hleft =>
    cases hanswer
    simp only [answersLeft]
    omega
  | sleep number duration hleft =>
    cases hanswer
    simp only [answersLeft]
    omega
  | finish signal status hrunning => cases hanswer

/-- A retry node can be brought to an answer if its child can. -/
theorem canAnswer (settings : RetrySettings) (name : String) {child : Tree κ}
    (hchild : child.CanAnswer) : (nodeOf settings name child).CanAnswer := by
  have hmoves : 2 * settings.maxRetries.toNat < (Kind.retry settings : Kind κ).allowance 1 := by
    rw [Kind.allowance]
    omega
  exact canAnswer_node (isPlain_machine settings)
    (fun moment _ => respond_ne_crash settings moment)
    (fun _ => endsWithin_of_lt (answersLeft settings) (fun _ _ _ _ => answersLeft_lt) hmoves)
    (List.forall_mem_singleton.mpr hchild)

/-- Whether attempts are numbered by 32 bits with a sign, and durations are given by 64 bits. -/
def Fits : Request → Prop
  | .run number _ => number < 2 ^ 31
  | .sleep number duration => number < 2 ^ 31 ∧ duration < 2 ^ 64
  | _ => True

/-- What the node does if its child answers these statuses: it makes so many attempts, sleeps after
those that fail except the last one there is, and gives an answer. -/
structure Makes (κ : Type) [Application κ] (settings : RetrySettings) (statuses : Nat → Status)
    (count : Nat) (answer : Status) : Prop where
  /-- The node can do this and nothing else, and then it has ended. -/
  talks_iff : ∀ size ≠ 0, ∀ exchanges status,
    (∃ last, (machine settings).Talks size () .started exchanges last (.finish status)) ∧
        Follows statuses 1 (exchanges.filterMap Exchange.execution?) ↔
      exchanges = course settings statuses count ∧ status = answer
  /-- That is what the child and the clock see of it. -/
  tick_eq : ∀ (name : String) (child : Tree κ) (stage : Stage (nodeOf settings name child)) acts
    status, stage.run = none → stage.Answers acts status →
      Follows statuses 1 (stage.tick acts status).executions →
        status = answer ∧
        (stage.tick acts status).deeds = (course settings statuses count).flatMap Exchange.deeds ∧
        (stage.tick acts status).requests =
          (course settings statuses count).map (·.request) ++ [.finish answer]
  /-- With settings of 32 bits, attempts and durations do not run out of their machine words. -/
  fits : settings.maxRetries < 2 ^ 31 → settings.backoff < 2 ^ 31 →
    ∀ exchange ∈ course settings statuses count, Fits exchange.request

/-- What goes on from the first attempt is what the node makes of the statuses. -/
theorem makes_of_goes {answer : Status} (hcount : (count : Int) ≤ settings.maxRetries ∨ count = 0)
    (hgoes : ∀ size exchanges status, Goes settings statuses size 1 exchanges status ↔
      exchanges = course settings statuses count ∧ status = answer) :
    Makes κ settings statuses count answer where
  talks_iff size hsize exchanges status :=
    (talks_started_iff hsize).trans (hgoes size exchanges status)
  tick_eq name child stage acts status hidle hanswers hfollows := by
    obtain ⟨exchanges, htalks, hrequests, hdeeds⟩ :=
      hanswers.talks (isPlain_machine settings) hidle
    rw [Tick.executions_of_talk hdeeds] at hfollows
    obtain ⟨rfl, rfl⟩ := (hgoes 1 exchanges status).mp
      ((talks_started_iff Nat.one_ne_zero).mp ⟨⟨_, htalks⟩, hfollows⟩)
    exact ⟨rfl, hdeeds, hrequests⟩
  fits hretries hbackoff exchange hmem := by
    obtain ⟨number, hnumber, hmem⟩ := List.mem_flatMap.mp hmem
    obtain ⟨-, hlast⟩ := List.mem_range'_1.mp hnumber
    have hsmall : number < 2 ^ 31 := by omega
    obtain rfl | hmem := List.mem_cons.mp hmem
    · exact hsmall
    · split at hmem
      · cases List.mem_singleton.mp hmem
        exact ⟨hsmall, delay_lt settings hbackoff number⟩
      · cases hmem

/-- A retry node executes its child until an attempt does not fail or all attempts are made, and
sleeps after every failed attempt but the last one there is. The waiting time is the exact product
cut off at the greatest 64-bit number, also if the power has been cut off there before. A tick that
begins can be continued to its end if executions of the child can. -/
theorem attempts_and_sleeps (κ : Type) [Application κ] (settings : RetrySettings)
    (statuses : Nat → Status) :
    (∀ number : Nat, 1 ≤ number → (number : Int) ≤ settings.maxRetries →
        statuses number ≠ .failure →
        (∀ earlier, 1 ≤ earlier → earlier < number → statuses earlier = .failure) →
          Makes κ settings statuses number (statuses number)) ∧
      ((∀ number : Nat, 1 ≤ number → (number : Int) ≤ settings.maxRetries →
          statuses number = .failure) →
        Makes κ settings statuses settings.maxRetries.toNat .failure) ∧
      (∀ number, delay settings number =
        if settings.exponential then
          min (settings.backoff.toNat * min (2 ^ (number - 1)) (2 ^ 64 - 1)) (2 ^ 64 - 1)
        else settings.backoff.toNat) ∧
      ∀ (name : String) (child : Tree κ), child.CanAnswer →
        ∀ (stage : Stage (nodeOf settings name child)) world, stage.run = none →
          ∃ acts status, stage.Answers (.turn world :: acts) status := by
  refine ⟨?_, ?_, delay_eq_saturated settings, ?_⟩
  · intro number hfirst hleft hanswer hfailed
    obtain ⟨count, rfl⟩ : ∃ count, number = count + 1 := ⟨number - 1, by omega⟩
    exact makes_of_goes (.inl hleft) fun size exchanges status =>
      goes_course (by exact_mod_cast hleft) hfailed fun hfailure => absurd hfailure hanswer
  · intro hfailed
    by_cases hnone : settings.maxRetries < 1
    · have hcount : settings.maxRetries.toNat = 0 := by omega
      rw [hcount]
      exact makes_of_goes (.inr rfl) fun size exchanges status => goes_done (by omega)
    · obtain ⟨count, hcount⟩ : ∃ count : Nat, settings.maxRetries = (count + 1 : Nat) :=
        ⟨settings.maxRetries.toNat - 1, by omega⟩
      have hlast : statuses (count + 1) = .failure := hfailed (count + 1) (by omega) (by omega)
      have hgoes : ∀ size exchanges status, Goes settings statuses size 1 exchanges status ↔
          exchanges = course settings statuses (count + 1) ∧ status = statuses (count + 1) :=
        fun size exchanges status => goes_course (by omega)
          (fun number hfirst hnumber => hfailed number hfirst (by omega)) fun _ => by omega
      rw [hlast] at hgoes
      rw [hcount]
      exact makes_of_goes (.inl (by omega)) hgoes
  · intro name child hchild stage world hidle
    exact (canAnswer settings name hchild).exists_answers hidle world

/-- Three attempts that fail, in three turns, with sleeps of five and ten milliseconds. -/
theorem attempts_and_sleeps_thrice :
    let settings : RetrySettings := ⟨3, 5, true⟩
    let child : Tree Empty := ⟨"", .forceFailure, []⟩
    let stage := Stage.fresh (nodeOf settings "Retry" child) (.own {})
    let tick := stage.tick [.turn {}, .turn { now := 5 }, .turn { now := 15 }] .failure
    stage.Answers [.turn {}, .turn { now := 5 }, .turn { now := 15 }] .failure ∧
      tick.executions = List.replicate 3 ⟨0, .failure⟩ ∧ tick.sleeps = [5, 10] ∧
      Makes Empty settings (fun _ => .failure) 3 .failure ∧
      tick.requests = (course settings (fun _ => .failure) 3).map (·.request) ++
        [.finish .failure] ∧
      child.CanAnswer ∧ ∃ acts status, stage.Answers (.turn { now := 20 } :: acts) status := by
  intro settings child stage tick
  have hanswers : stage.Answers [.turn {}, .turn { now := 5 }, .turn { now := 15 }] .failure :=
    .wait {} rfl (.wait { now := 5 } rfl (.last { now := 15 } rfl))
  have hexecutions : tick.executions = List.replicate 3 ⟨0, .failure⟩ := by decide +kernel
  have hmakes : Makes Empty settings (fun _ => .failure) 3 .failure :=
    (attempts_and_sleeps Empty settings fun _ => .failure).2.1 fun _ _ _ => rfl
  have hfollows : Follows (fun _ => .failure) 1 tick.executions := by
    rw [hexecutions]
    rfl
  have hchild : child.CanAnswer := canAnswer_forceFailure ""
  refine ⟨hanswers, hexecutions, by decide +kernel, hmakes, ?_, hchild, ?_⟩
  · exact (hmakes.tick_eq "Retry" _ stage _ .failure rfl hanswers hfollows).2.2
  · exact (attempts_and_sleeps Empty settings fun _ => .failure).2.2.2 "Retry" child hchild stage _
      rfl

end BehaviorTree.Retry
