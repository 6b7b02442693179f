import ScraperTimeline.Proofs.Timeline.Plan
import ScraperTimeline.Proofs.Timeline.Observed

/-!
The loop that brings a version in, over any store. Other writers may change the store between any two calls, so each
read may find another open version, and each swap may be lost.
-/
namespace ScraperTimeline.Sync

/-! ### Waits in machine words -/

def lesser (a b : UInt32) : UInt32 := if a < b then a else b

-- The difference, or zero where there is none.
def lessened (a b : UInt32) : UInt32 := if b ≤ a then a - b else 0

-- What the first wait is multiplied with, in a word of 32 bits.
def factorWord (attempt : UInt32) : UInt32 := 1 <<< lesser (lessened attempt 1) 16

def nanosPerMillisecond : Nat := 1000000

-- The longest span of which the seconds are in a word of 64 bits, in nanoseconds.
def longestSpan : Nat := Nat.pow 2 64 * Instant.nanosPerSecond - 1

-- A wait in nanoseconds: the product ends at the longest span, and the wait at the longest wait.
def delayNanos (backoff : Nat) (attempt : UInt32) : Nat :=
  min (min (backoff * nanosPerMillisecond * (factorWord attempt).toNat) longestSpan)
    (longestWait * nanosPerMillisecond)

theorem toNat_lesser (a b : UInt32) : (lesser a b).toNat = min a.toNat b.toNat := by
  rw [lesser]
  split
  next h => exact (Nat.min_eq_left (Nat.le_of_lt (UInt32.lt_iff_toNat_lt.mp h))).symm
  next h => exact (Nat.min_eq_right (Nat.le_of_not_lt (mt UInt32.lt_iff_toNat_lt.mpr h))).symm

theorem toNat_lessened (a b : UInt32) : (lessened a b).toNat = a.toNat - b.toNat := by
  rw [lessened]
  split
  next h => exact UInt32.toNat_sub_of_le _ _ h
  next h => exact (Nat.sub_eq_zero_of_le (Nat.le_of_not_le (mt UInt32.le_iff_toNat_le.mpr h))).symm

-- At most sixteen doublings fit the word.
theorem toNat_factorWord (attempt : UInt32) :
    (factorWord attempt).toNat = Nat.pow 2 (min (attempt.toNat - 1) 16) := by
  have hshift : (lesser (lessened attempt 1) 16).toNat = min (attempt.toNat - 1) 16 := by
    rw [toNat_lesser, toNat_lessened]
    rfl
  have hle : min (attempt.toNat - 1) 16 ≤ 16 := Nat.min_le_right ..
  have hfits : 2 ^ min (attempt.toNat - 1) 16 ≤ 2 ^ 16 := Nat.pow_le_pow_right (by decide) hle
  rw [factorWord, UInt32.toNat_shiftLeft, hshift, Nat.mod_eq_of_lt (Nat.lt_of_le_of_lt hle (by decide)),
    Nat.shiftLeft_eq, UInt32.toNat_one, Nat.one_mul, Nat.mod_eq_of_lt (Nat.lt_of_le_of_lt hfits (by decide))]
  rfl

-- The longest wait is far below the longest span.
theorem delayNanos_eq (backoff : Nat) (attempt : UInt32) :
    delayNanos backoff attempt = delay backoff attempt.toNat * nanosPerMillisecond := by
  have hspan : min longestSpan (longestWait * nanosPerMillisecond) = longestWait * nanosPerMillisecond := by decide
  rw [delayNanos, toNat_factorWord, Nat.min_assoc, hspan, delay, ← Nat.mul_min_mul_right, Nat.mul_right_comm]

-- Where sixteen doublings are not enough, both sides are at the longest wait.
theorem delay_succ (backoff i : Nat) : delay backoff (i + 1) = min (backoff * Nat.pow 2 i) longestWait := by
  simp only [delay, Nat.add_sub_cancel]
  by_cases hi : i ≤ 16
  · rw [Nat.min_eq_left hi]
  · rw [Nat.min_eq_right (Nat.le_of_not_le hi)]
    by_cases hzero : backoff = 0
    · rw [hzero, Nat.zero_mul, Nat.zero_mul]
    · have hcap : longestWait ≤ backoff * Nat.pow 2 16 :=
        Nat.le_trans (by decide) (Nat.mul_le_mul_right _ (Nat.pos_of_ne_zero hzero))
      have hmore : backoff * Nat.pow 2 16 ≤ backoff * Nat.pow 2 i :=
        Nat.mul_le_mul_left _ (Nat.pow_le_pow_right (by decide) (Nat.le_of_not_le hi))
      rw [Nat.min_eq_right hcap, Nat.min_eq_right (Nat.le_trans hcap hmore)]

/-! ### One attempt -/

section
variable {high : Instant} {new : Version}

-- The calls of an attempt, and how it ends. What is swapped has been planned for what has just been read.
inductive Round (high : Instant) (new : Version) : List Exchange → Attempt → Prop
  | refused {seen : Option Version} {e : Fault} (hplan : plan high new seen = .error e) :
      Round high new [.read new.name (.ok seen)] (.failed e)
  | unchanged {seen : Option Version} (hplan : plan high new seen = .ok (.unchanged, [])) :
      Round high new [.read new.name (.ok seen)] (.settled .unchanged)
  | swapped {seen : Option Version} {outcome : Outcome} {writes : List Version}
      (hplan : plan high new seen = .ok (outcome, writes)) (hchange : outcome.isChange)
      (answer : Except Fault Unit) :
      Round high new [.read new.name (.ok seen), .swap new.name seen writes answer] (.ofSwap outcome answer)

-- A call after another one.
inductive Follows (high : Instant) (new : Version) : Exchange → Exchange → Prop
  | read {name : String} {expected : Option Version} {writes : List Version} (answer : Except Fault Unit)
      (seen : Option Version) : Follows high new (.swap name expected writes answer) (.read new.name (.ok seen))
  | swap {seen : Option Version} {outcome : Outcome} {writes : List Version}
      (hplan : plan high new seen = .ok (outcome, writes)) (answer : Except Fault Unit) :
      Follows high new (.read new.name (.ok seen)) (.swap new.name seen writes answer)

-- A call after which nothing is left to be done, and what is told then.
inductive Decides (high : Instant) (new : Version) : Exchange → Except Fault Outcome → Prop
  | refused {name : String} {seen : Option Version} {e : Fault} (hplan : plan high new seen = .error e) :
      Decides high new (.read name (.ok seen)) (.error e)
  | unchanged {name : String} {seen : Option Version} {writes : List Version}
      (hplan : plan high new seen = .ok (.unchanged, writes)) :
      Decides high new (.read name (.ok seen)) (.ok .unchanged)
  | acknowledged {name : String} {seen : Option Version} {outcome : Outcome} {writes : List Version}
      (hplan : plan high new seen = .ok (outcome, writes)) :
      Decides high new (.swap name seen writes (.ok ())) (.ok outcome)
  | failed {name : String} {seen : Option Version} {writes : List Version} {e : Fault}
      (hfinal : e.isRetryable = false) : Decides high new (.swap name seen writes (.error e)) (.error e)

theorem isRetryable_of_plan {seen : Option Version} {e : Fault} (h : plan high new seen = .error e) :
    e.isRetryable = false := by
  rcases plan_cases high new seen with ⟨reason, hplan⟩ | hplan | ⟨outcome, writes, -, -, hplan⟩
  all_goals
    rw [h] at hplan
    cases hplan
  rfl

-- Only a swap is lost, and only to another writer.
theorem Round.of_lost {calls : List Exchange} {e : Fault} (h : Round high new calls (.lost e)) :
    ∃ seen outcome writes name, e = .concurrentModification name ∧
      plan high new seen = .ok (outcome, writes) ∧ outcome.isChange ∧
      calls = [.read new.name (.ok seen), .swap new.name seen writes (.error e)] := by
  generalize ha : Attempt.lost e = a at h
  cases h with
  | refused => cases ha
  | unchanged => cases ha
  | @swapped seen outcome writes hplan hchange answer =>
      cases answer with
      | ok => cases ha
      | error e' =>
          rw [Attempt.ofSwap] at ha
          split at ha
          next hretryable =>
            cases ha
            cases e with
            | concurrentModification name => exact ⟨seen, outcome, writes, name, rfl, hplan, hchange, rfl⟩
            | _ => cases hretryable
          next => cases ha

-- What has been read is not the end if there is something to swap.
theorem not_decides_read {seen : Option Version} {outcome : Outcome} {writes : List Version}
    (hplan : plan high new seen = .ok (outcome, writes)) (hchange : outcome.isChange) (name : String)
    (answer : Except Fault Outcome) : ¬Decides high new (.read name (.ok seen)) answer := by
  rintro (⟨hother⟩ | ⟨hother⟩)
  · rw [hplan] at hother
    cases hother
  · rw [hplan] at hother
    cases hother
    cases hchange

end

section
variable {σ : Type} [Store σ] {settings : Settings} {new : Version} {s after : σ}

theorem exists_round (high : Instant) {seen : Option Version}
    (hread : (Store.findOpen new.name : Storing σ (Option Version)).run.run s = (.ok seen, after)) :
    ∃ calls a s', Round high new calls a ∧ (attempt high new).run s = (a, s') ∧
      ∀ past, (attempt high new).run (⟨s, past⟩ : Observed σ) = (a, ⟨s', past ++ calls⟩) := by
  have hconsult : (consult high new).run s = _ := run_consult_of_read hread
  have hobserved (past : List Exchange) : (consult high new).run (⟨s, past⟩ : Observed σ) = _ :=
    run_consult_of_read (Observed.run_findOpen hread past)
  rcases plan_cases high new seen with ⟨reason, hplan⟩ | hplan | ⟨outcome, writes, hchange, hne, hplan⟩
  · rw [hplan] at hconsult
    simp only [hplan] at hobserved
    exact ⟨_, _, after, .refused hplan, run_attempt_ended hconsult, fun past => run_attempt_ended (hobserved past)⟩
  · rw [hplan] at hconsult
    simp only [hplan] at hobserved
    exact ⟨_, _, after, .unchanged hplan, run_attempt_ended hconsult, fun past => run_attempt_ended (hobserved past)⟩
  · rw [hplan, Finding.ofPlan_of_ne_nil hne] at hconsult
    simp only [hplan, Finding.ofPlan_of_ne_nil hne] at hobserved
    rcases hswap : (Store.swap new.name seen writes : Storing σ Unit).run.run after with ⟨answer, s'⟩
    refine ⟨_, _, s', .swapped hplan hchange answer, ?_, fun past => ?_⟩
    · exact (run_attempt_swap hconsult).trans (run_commit_of_swap hswap)
    · rw [run_attempt_swap (hobserved past), run_commit_of_swap (Observed.run_swap hswap _)]
      simp

end

/-! ### All attempts -/

-- What can be said of the calls of the loop, of its waits and of what it tells, when so many retries have been made
-- and so many are left.
structure Contested (settings : Settings) (new : Version) (made left : Nat) (calls : List Exchange)
    (waits : List Wait) (result : Except Fault Outcome) : Prop where
  bounded : (calls.filter (·.isSwap)).length ≤ left + 1
  opens : ∃ seen, calls.head? = some (.read new.name (.ok seen))
  -- What is swapped has been planned for what the call before has read.
  fresh : calls.IsChain (Follows settings.high new)
  stops : ∀ call ∈ calls.dropLast, ∀ answer, ¬Decides settings.high new call answer
  ends : (∃ call ∈ calls.getLast?, Decides settings.high new call result) ∨
    ∃ name, result = .error (.concurrentModification name)
  conflicts : (∃ name, result = .error (.concurrentModification name)) ↔
    (calls.filter (·.isSwap)).length = left + 1 ∧ ∀ call ∈ calls.filter (·.isSwap), call.isConflict
  retried : waits.length ≤ left
  waited : waits.map (fun w => (w.attempt, w.milliseconds)) =
    (List.range' made ((calls.filter (·.isRead)).length - 1)).map fun i =>
      (i + 1, min (settings.backoff * Nat.pow 2 i) longestWait)

section
variable {settings : Settings} {new : Version} {made left : Nat} {calls rest : List Exchange} {waits : List Wait}
  {a : Attempt} {e : Fault} {result : Except Fault Outcome}

theorem Round.contested (h : Round settings.high new calls a) (hlast : ∀ e, a = .lost e → left = 0) :
    Contested settings new made left calls [] a.result := by
  cases h with
  | @refused seen e hplan =>
      have hfinal := isRetryable_of_plan hplan
      have hother : ¬∃ name, (Except.error e : Except Fault Outcome) = .error (.concurrentModification name) := by
        rintro ⟨name, ⟨⟩⟩
        cases hfinal
      exact ⟨by simp [Exchange.isSwap], ⟨seen, rfl⟩, .singleton _, by simp, .inl ⟨_, rfl, .refused hplan⟩,
        iff_of_false hother (by simp [Exchange.isSwap]), Nat.zero_le _, rfl⟩
  | @unchanged seen hplan =>
      exact ⟨by simp [Exchange.isSwap], ⟨seen, rfl⟩, .singleton _, by simp, .inl ⟨_, rfl, .unchanged hplan⟩,
        iff_of_false (by simp [Attempt.result]) (by simp [Exchange.isSwap]), Nat.zero_le _, rfl⟩
  | @swapped seen outcome writes hplan hchange answer =>
      have hstops : ∀ call ∈ [Exchange.read new.name (.ok seen), .swap new.name seen writes answer].dropLast,
          ∀ answer, ¬Decides settings.high new call answer := by
        simpa using not_decides_read hplan hchange new.name
      have hfresh := List.IsChain.cons_cons (Follows.swap hplan answer) (.singleton _)
      refine ⟨by simp [Exchange.isSwap], ⟨seen, rfl⟩, hfresh, hstops, ?_, ?_, Nat.zero_le _, rfl⟩ <;>
        rw [result_ofSwap]
      · cases answer with
        | ok => exact .inl ⟨_, rfl, .acknowledged hplan⟩
        | error e =>
            cases e with
            | concurrentModification name => exact .inr ⟨name, rfl⟩
            | _ => exact .inl ⟨_, rfl, .failed rfl⟩
      · cases answer with
        | ok => exact iff_of_false (by simp [Except.map]) (by simp [Exchange.isSwap, Exchange.isConflict])
        | error e =>
            cases e with
            | concurrentModification name =>
                have hleft := hlast (.concurrentModification name) rfl
                exact iff_of_true ⟨name, rfl⟩ (by simp [hleft, Exchange.isSwap, Exchange.isConflict])
            | _ => exact iff_of_false (by simp [Except.map]) (by simp [Exchange.isSwap, Exchange.isConflict])

theorem Contested.again (hrest : Contested settings new (made + 1) left rest waits result)
    (h : Round settings.high new calls (.lost e)) :
    Contested settings new made (left + 1) (calls ++ rest)
      (⟨new.name, made + 1, delay settings.backoff (made + 1), e⟩ :: waits) result := by
  obtain ⟨seen, outcome, writes, name, rfl, hplan, hchange, rfl⟩ := h.of_lost
  obtain ⟨first, hfirst⟩ := hrest.opens
  obtain ⟨tail, rfl⟩ := List.head?_eq_some_iff.mp hfirst
  refine ⟨?_, ⟨seen, rfl⟩, ?_, ?_, ?_, ?_, ?_, ?_⟩
  · simpa [Exchange.isSwap] using hrest.bounded
  · exact .cons_cons (.swap hplan _) (.cons_cons (.read _ _) hrest.fresh)
  · have hswap (answer : Except Fault Outcome) : ¬Decides settings.high new
        (.swap new.name seen writes (.error (.concurrentModification name))) answer := by
      intro hdecides
      cases hdecides with
      | failed hfinal => cases hfinal
    have hread := not_decides_read hplan hchange new.name
    simpa [List.dropLast] using ⟨hread, hswap, hrest.stops⟩
  · simpa using hrest.ends
  · rw [hrest.conflicts]
    simp [Exchange.isSwap, Exchange.isConflict]
  · simpa using hrest.retried
  · simpa [Exchange.isRead, List.range'_succ, delay_succ] using hrest.waited

end

section
variable {σ : Type} [Store σ] (settings : Settings) (new : Version)

-- By induction on the retries that are left. Only an attempt that is lost leads to another one.
theorem exists_contested
    (hreads : ∀ s : σ, ∃ seen s',
      (Store.findOpen new.name : Storing σ (Option Version)).run.run s = (.ok seen, s'))
    (left made : Nat) (s : σ) :
    ∃ calls waits result after, Contested settings new made left calls waits result ∧
      (settle settings new made left).run s = ((waits, result), after) ∧
      ∀ past, (settle settings new made left).run (⟨s, past⟩ : Observed σ) =
        ((waits, result), ⟨after, past ++ calls⟩) := by
  induction left generalizing made s with
  | zero =>
      obtain ⟨seen, s', hread⟩ := hreads s
      obtain ⟨calls, a, after, hround, hplain, hobserved⟩ := exists_round settings.high hread
      exact ⟨calls, [], a.result, after, hround.contested fun _ _ => rfl, run_settle_zero hplain,
        fun past => run_settle_zero (hobserved past)⟩
  | succ left ih =>
      obtain ⟨seen, s', hread⟩ := hreads s
      obtain ⟨calls, a, after, hround, hplain, hobserved⟩ := exists_round settings.high hread
      by_cases hlost : ∃ e, a = .lost e
      · obtain ⟨e, rfl⟩ := hlost
        obtain ⟨rest, waits, result, final, hrest, hplainRest, hobservedRest⟩ := ih (made + 1) after
        refine ⟨calls ++ rest, _, result, final, hrest.again hround, run_settle_of_lost hplain hplainRest,
          fun past => ?_⟩
        rw [← List.append_assoc]
        exact run_settle_of_lost (hobserved past) (hobservedRest (past ++ calls))
      · have hended : ∀ e, a ≠ .lost e := fun e he => hlost ⟨e, he⟩
        exact ⟨calls, [], a.result, after, hround.contested fun e he => absurd he (hended e),
          run_settle hplain hended, fun past => run_settle (hobserved past) hended⟩

-- A version that is brought in, with the calls that are made for it. The waits are computed without overflow in the
-- words that hold them.
theorem settle_contested
    (hreads : ∀ s : σ, ∃ seen s',
      (Store.findOpen new.name : Storing σ (Option Version)).run.run s = (.ok seen, s')) (s : σ) :
    (∃ calls waits result after,
      (settle settings new 0 settings.retries).run s = ((waits, result), after) ∧
      (settle settings new 0 settings.retries).run (⟨s, []⟩ : Observed σ) = ((waits, result), ⟨after, calls⟩) ∧
      Contested settings new 0 settings.retries calls waits result) ∧
    ∀ i : UInt32, i ≠ 0 →
      (factorWord i).toNat = Nat.pow 2 (min (i.toNat - 1) 16) ∧
      delayNanos settings.backoff i = delay settings.backoff i.toNat * nanosPerMillisecond ∧
      delay settings.backoff i.toNat = min (settings.backoff * Nat.pow 2 (i.toNat - 1)) longestWait := by
  refine ⟨?_, fun i hi => ⟨toNat_factorWord i, delayNanos_eq settings.backoff i, ?_⟩⟩
  · obtain ⟨calls, waits, result, after, hcontested, hplain, hobserved⟩ :=
      exists_contested settings new hreads settings.retries 0 s
    exact ⟨calls, waits, result, after, hplain, hobserved [], hcontested⟩
  · have hpos : 0 < i.toNat := Nat.pos_of_ne_zero fun h => hi (UInt32.toNat_inj.mp h)
    rw [← delay_succ, Nat.sub_add_cancel hpos]

-- Others put in a version before the first swap, and another one before the second.
theorem settle_contested_twice :
    let version (second : Int) (body : Tree) : Version := .ofBody "axis" ⟨second, 0⟩ ⟨9, 0⟩ body
    let settings : Settings := ⟨⟨9, 0⟩, 2, 600⟩
    let lost := Fault.concurrentModification "axis"
    let told : Scripted :=
      ⟨[none, some (version 1 .null), some (version 2 (.bool true))], [.error lost, .error lost, .ok ()]⟩
    let waits : List Wait := [⟨"axis", 1, 600, lost⟩, ⟨"axis", 2, 1000, lost⟩]
    ∃ calls, Contested settings (version 4 (.int 1)) 0 2 calls waits (.ok (.superseded ⟨3, 0⟩)) ∧
      (settle settings (version 4 (.int 1)) 0 2).run told = ((waits, .ok (.superseded ⟨3, 0⟩)), ⟨[], []⟩) ∧
      calls.filter (·.isSwap) =
        [.swap "axis" none [version 4 (.int 1)] (.error lost),
          .swap "axis" (some (version 1 .null)) [(version 1 .null).closedAt ⟨3, 0⟩, version 4 (.int 1)] (.error lost),
          .swap "axis" (some (version 2 (.bool true)))
            [(version 2 (.bool true)).closedAt ⟨3, 0⟩, version 4 (.int 1)] (.ok ())] ∧
      delayNanos 600 2 = 1000000000 := by
  intro version settings lost told waits
  obtain ⟨⟨calls, waits', result, after, hplain, hobserved, hcontested⟩, hwait⟩ :=
    settle_contested settings (version 4 (.int 1)) (fun s => ⟨_, _, s.run_findOpen "axis"⟩) told
  have hrun : (settle settings (version 4 (.int 1)) 0 2).run told =
      ((waits, .ok (.superseded ⟨3, 0⟩)), ⟨[], []⟩) :=
    Prod.ext (Prod.ext (by decide) rfl) rfl
  obtain ⟨rfl, rfl⟩ := Prod.mk.inj (congrArg Prod.fst (hrun.symm.trans hplain))
  refine ⟨calls, hcontested, hrun, ?_, (hwait 2 (by decide)).2.1.trans (by decide)⟩
  rw [show calls = _ from congrArg (·.2.calls) hobserved.symm]
  rfl

end

end ScraperTimeline.Sync
