import Mathlib.Logic.Function.Basic
import Mathlib.Logic.Relation

namespace Threads

/-- A program: it is done with a value, or it makes a call and goes on with the answer. -/
inductive Program (Call : Type) (Answer : Call → Type) (α : Type) where
  | done (value : α)
  | call (call : Call) (next : Answer call → Program Call Answer α)

variable {Call : Type} {Answer : Call → Type} {α β S ι : Type}

namespace Program

def bind : Program Call Answer α → (α → Program Call Answer β) → Program Call Answer β
  | done value, rest => rest value
  | call c next, rest => call c fun answer => (next answer).bind rest

instance : Monad (Program Call Answer) where
  pure := done
  bind := bind

/-- The program that makes one call. -/
def perform (c : Call) : Program Call Answer (Answer c) := call c done

end Program

/-- What is known of a thread and of the others. -/
structure Rules (S : Type) where
  /-- This always holds. -/
  invariant : S → Prop
  /-- What the others may do. -/
  rely : S → S → Prop
  /-- What the thread may do. -/
  guarantee : S → S → Prop

namespace Rules

variable (rules : Rules S)

/-- An assertion that the others leave true. -/
def Stable (here : S → Prop) : Prop :=
  ∀ s t, rules.invariant s → rules.invariant t → rules.rely s t → here s → here t

variable (host : (c : Call) → S → Answer c → S → Prop)

/-- The program keeps the rules from states with `pre` on, and ends in states with `post`. The others leave true
what is asserted of its places. -/
def Outline : (S → Prop) → Program Call Answer α → (α → S → Prop) → Prop
  | pre, .done value, post =>
    ∃ here, rules.Stable here ∧ (∀ s, rules.invariant s → pre s → here s) ∧
      ∀ s, rules.invariant s → here s → post value s
  | pre, .call c next, post =>
    ∃ (here : S → Prop) (mid : Answer c → S → Prop), rules.Stable here ∧ (∀ s, rules.invariant s → pre s → here s) ∧
      (∀ s answer t, rules.invariant s → here s → host c s answer t →
        rules.invariant t ∧ rules.guarantee s t ∧ mid answer t) ∧
      ∀ answer, Outline (mid answer) (next answer) post

variable {rules host} {pre pre' : S → Prop} {post post' : α → S → Prop} {p : Program Call Answer α}

theorem Outline.weaken (outline : rules.Outline host pre p post)
    (implies : ∀ s, rules.invariant s → pre' s → pre s) : rules.Outline host pre' p post := by
  cases p with
  | done =>
    obtain ⟨here, stable, before, after⟩ := outline
    exact ⟨here, stable, fun s kept holds => before s kept (implies s kept holds), after⟩
  | call =>
    obtain ⟨here, mid, stable, before, step, rest⟩ := outline
    exact ⟨here, mid, stable, fun s kept holds => before s kept (implies s kept holds), step, rest⟩

theorem Outline.imp (outline : rules.Outline host pre p post)
    (implies : ∀ a s, rules.invariant s → post a s → post' a s) : rules.Outline host pre p post' := by
  induction p generalizing pre with
  | done value =>
    obtain ⟨here, stable, before, after⟩ := outline
    exact ⟨here, stable, before, fun s kept holds => implies value s kept (after s kept holds)⟩
  | call c next ih =>
    obtain ⟨here, mid, stable, before, step, rest⟩ := outline
    exact ⟨here, mid, stable, before, step, fun answer => ih answer (rest answer)⟩

theorem Outline.done {value : α} (stable : rules.Stable pre) (after : ∀ s, rules.invariant s → pre s → post value s) :
    rules.Outline host pre (.done value) post :=
  ⟨pre, stable, fun _ _ holds => holds, after⟩

theorem Outline.call {c : Call} {next : Answer c → Program Call Answer α} {mid : Answer c → S → Prop}
    (stable : rules.Stable pre)
    (step : ∀ s answer t, rules.invariant s → pre s → host c s answer t →
      rules.invariant t ∧ rules.guarantee s t ∧ mid answer t)
    (rest : ∀ answer, rules.Outline host (mid answer) (next answer) post) :
      rules.Outline host pre (.call c next) post :=
  ⟨pre, mid, stable, fun _ _ holds => holds, step, rest⟩

/-- One program after another. -/
theorem Outline.bind {rest : α → Program Call Answer β} {last : β → S → Prop}
    (first : rules.Outline host pre p post) (second : ∀ a, rules.Outline host (post a) (rest a) last) :
      rules.Outline host pre (p >>= rest) last := by
  induction p generalizing pre with
  | done value =>
    obtain ⟨here, _, before, after⟩ := first
    exact (second value).weaken fun s kept holds => after s kept (before s kept holds)
  | call c next ih =>
    obtain ⟨here, mid, stable, before, step, more⟩ := first
    exact ⟨here, mid, stable, before, step, fun answer => ih answer (more answer)⟩

theorem Outline.ite {c : Prop} [Decidable c] {q : Program Call Answer α}
    (yes : c → rules.Outline host pre p post) (no : ¬c → rules.Outline host pre q post) :
      rules.Outline host pre (if c then p else q) post := by
  split
  · exact yes ‹c›
  · exact no ‹¬c›

/-- A call alone. -/
theorem Outline.perform {c : Call} (after : Answer c → S → Prop) (stable : rules.Stable pre)
    (stable' : ∀ answer, rules.Stable (after answer))
    (step : ∀ s answer t, rules.invariant s → pre s → host c s answer t →
      rules.invariant t ∧ rules.guarantee s t ∧ after answer t) :
      rules.Outline host pre (Program.perform c) after :=
  .call stable step fun answer => .done (stable' answer) fun _ _ holds => holds

theorem Stable.and {here there : S → Prop} (first : rules.Stable here) (second : rules.Stable there) :
    rules.Stable fun s => here s ∧ there s :=
  fun s t before after within holds =>
    ⟨first s t before after within holds.1, second s t before after within holds.2⟩

theorem Stable.or {here there : S → Prop} (first : rules.Stable here) (second : rules.Stable there) :
    rules.Stable fun s => here s ∨ there s :=
  fun s t before after within holds =>
    holds.imp (first s t before after within) (second s t before after within)

theorem Stable.const (p : Prop) : rules.Stable fun _ => p := fun _ _ _ _ _ holds => holds

end Rules

/-- What the threads share, and what each of them has left to do. -/
structure Pool (Call : Type) (Answer : Call → Type) (S ι : Type) where
  state : S
  threads : ι → Program Call Answer Unit

section Pool

variable [DecidableEq ι] (host : ι → (c : Call) → S → Answer c → S → Prop)
  (handler : ι → S → Program Call Answer Unit → Prop) (other : S → S → Prop)

/-- One thread makes a call, or it is interrupted and goes on with what its handler does, or something else
happens. -/
inductive Step : Pool Call Answer S ι → Pool Call Answer S ι → Prop
  | call {pool : Pool Call Answer S ι} {i : ι} {c : Call} {next : Answer c → Program Call Answer Unit}
      {answer : Answer c} {t : S} (turn : pool.threads i = .call c next) (does : host i c pool.state answer t) :
      Step pool ⟨t, Function.update pool.threads i (next answer)⟩
  | interrupted {pool : Pool Call Answer S ι} {i : ι} {p : Program Call Answer Unit}
      (handles : handler i pool.state p) : Step pool ⟨pool.state, Function.update pool.threads i p⟩
  | other {pool : Pool Call Answer S ι} {t : S} (happens : other pool.state t) : Step pool ⟨t, pool.threads⟩

/-- Rules for all of the threads that fit together. -/
structure Fit (rules : ι → Rules S) (invariant : S → Prop) : Prop where
  shared : ∀ i, (rules i).invariant = invariant
  apart : ∀ i j, i ≠ j → ∀ s t, invariant s → invariant t → (rules i).guarantee s t → (rules j).rely s t
  others : ∀ s t, invariant s → other s t → invariant t ∧ ∀ i, (rules i).rely s t
  handlers : ∀ i s p, invariant s → handler i s p → (rules i).Outline (host i) (· = s) p fun _ _ => True

/-- The invariant holds, and each thread is at a place in an outline. -/
def Fine (rules : ι → Rules S) (invariant : S → Prop) (pool : Pool Call Answer S ι) : Prop :=
  invariant pool.state ∧
    ∀ i, ∃ pre, pre pool.state ∧ (rules i).Outline (host i) pre (pool.threads i) fun _ _ => True

variable {host handler other} {rules : ι → Rules S} {invariant : S → Prop} {pool pool' : Pool Call Answer S ι}

/-- A thread is at a place of which something is asserted that the others leave true. -/
theorem Rules.Outline.place {rules : Rules S} {host : (c : Call) → S → Answer c → S → Prop} {pre : S → Prop}
    {p : Program Call Answer α} {post : α → S → Prop} {s : S} (outline : rules.Outline host pre p post)
    (kept : rules.invariant s) (holds : pre s) :
      ∃ here, rules.Stable here ∧ here s ∧ rules.Outline host here p post := by
  cases p with
  | done =>
    obtain ⟨here, stable, before, after⟩ := outline
    exact ⟨here, stable, before s kept holds, here, stable, fun _ _ holds => holds, after⟩
  | call =>
    obtain ⟨here, mid, stable, before, step, rest⟩ := outline
    exact ⟨here, stable, before s kept holds, here, mid, stable, fun _ _ holds => holds, step, rest⟩

theorem Step.fine (fit : Fit host handler other rules invariant) (step : Step host handler other pool pool')
    (fine : Fine host rules invariant pool) : Fine host rules invariant pool' := by
  obtain ⟨kept, each⟩ := fine
  -- what has become of the state is within what the thread relies on
  have remains {j : ι} {t : S} (after : invariant t) (within : (rules j).rely pool.state t) :
      ∃ pre, pre t ∧ (rules j).Outline (host j) pre (pool.threads j) fun _ _ => True := by
    obtain ⟨pre, holds, outline⟩ := each j
    have keptHere : (rules j).invariant pool.state := (fit.shared j).symm ▸ kept
    have keptThere : (rules j).invariant t := (fit.shared j).symm ▸ after
    obtain ⟨here, stable, now, again⟩ := outline.place keptHere holds
    exact ⟨here, stable _ _ keptHere keptThere within now, again⟩
  cases step with
  | @call i c next answer t turn does =>
    obtain ⟨pre, holds, outline⟩ := each i
    rw [turn] at outline
    obtain ⟨here, mid, _, before, does_, rest⟩ := outline
    have keptHere : (rules i).invariant pool.state := (fit.shared i).symm ▸ kept
    obtain ⟨after, made, now⟩ := does_ _ _ _ keptHere (before _ keptHere holds) does
    rw [fit.shared i] at after
    refine ⟨after, fun j => ?_⟩
    by_cases same : j = i
    · subst same
      exact ⟨mid answer, now, by simpa using rest answer⟩
    · simpa [Function.update_of_ne same] using remains after (fit.apart i j (Ne.symm same) _ _ kept after made)
  | @interrupted i p handles =>
    refine ⟨kept, fun j => ?_⟩
    by_cases same : j = i
    · subst same
      exact ⟨(· = pool.state), rfl, by simpa using fit.handlers j _ p kept handles⟩
    · simpa [Function.update_of_ne same] using each j
  | @other t happens =>
    obtain ⟨after, within⟩ := fit.others _ _ kept happens
    exact ⟨after, fun j => remains after (within j)⟩

/-- The threads take turns in any order, and any of them may be interrupted anywhere. -/
theorem fine_reachable (fit : Fit host handler other rules invariant) (fine : Fine host rules invariant pool)
    (run : Relation.ReflTransGen (Step host handler other) pool pool') : Fine host rules invariant pool' := by
  induction run with
  | refl => exact fine
  | tail _ step ih => exact step.fine fit ih

end Pool

end Threads
