import FlowEngine.Failure
import FlowEngine.Step.Basic

/-!
# Retrying

Which failures a policy retries, how long it waits before the next attempt, and
the failure it ends with when its attempts are used up.
-/
namespace FlowEngine

/-- A power of a double by repeated squaring. The first argument bounds the
number of binary digits of the exponent. -/
def squarePower : Nat → Float → Nat → Float → Float
  | 0, _, _, acc => acc
  | fuel + 1, base, exponent, acc =>
    let acc := if exponent % 2 = 1 then acc * base else acc
    if exponent / 2 = 0 then acc else squarePower fuel (base * base) (exponent / 2) acc

namespace Backoff

def exponentLimit : Nat := 32

/-- The delay after a failed attempt, counted from 1. An exponential delay that
is not a positive number is none at all. -/
def delay (b : Backoff) (attempt : Nat) : Millis :=
  let attempt := max attempt 1
  match b with
  | fixed delay => delay
  | linear delay => .ofNat (min (delay.toNat * attempt) (UInt64.size - 1))
  | exponential initial multiplier limit =>
    let power : Float := squarePower 6 multiplier (min (attempt - 1) exponentLimit) 1
    let raw : Float := initial.toFloat * power
    let capped : Float := match limit with
      | some top => if raw ≤ top.toFloat then raw else top.toFloat
      | none => raw
    if capped.isFinite && 0 < capped then capped.toUInt64 else 0

/-- The wait after the `n`-th failed attempt is always the same, or it is `n` times as long until it
saturates, or it is that of a double that grows up to its limit. A double that is not a positive number
makes for no wait. -/
theorem delay_eq (b : Backoff) {n : Nat} (hn : 0 < n) :
    match b with
    | fixed wait => b.delay n = wait
    | linear wait => (b.delay n).toNat = min (wait.toNat * n) (UInt64.size - 1)
    | exponential initial multiplier limit => ∃ grown capped : Float,
      grown = initial.toFloat * squarePower 6 multiplier (min (n - 1) exponentLimit) 1 ∧
      (capped = grown ∧ (∀ top ∈ limit, grown ≤ top.toFloat) ∨
        ∃ top ∈ limit, capped = top.toFloat ∧ ¬ grown ≤ top.toFloat) ∧
      b.delay n = if capped.isFinite && 0 < capped then capped.toUInt64 else 0 := by
  have hmax : max n 1 = n := Nat.max_eq_left hn
  cases b with
  | fixed wait => rfl
  | linear wait =>
      have hlt : min (wait.toNat * n) (UInt64.size - 1) < UInt64.size :=
        Nat.lt_of_le_of_lt (Nat.min_le_right _ _) (by decide)
      simp only [delay, hmax, UInt64.toNat_ofNat_of_lt' hlt]
  | exponential initial multiplier limit =>
      simp only [delay, hmax]
      refine ⟨_, _, rfl, ?_, rfl⟩
      cases limit with
      | none => exact Or.inl ⟨rfl, by simp⟩
      | some top =>
          dsimp only
          split
          · exact Or.inl ⟨rfl, by simpa⟩
          · exact Or.inr ⟨top, rfl, rfl, ‹_›⟩

end Backoff

namespace RetryPolicy

def constant (maxAttempts : UInt32) (delay : Millis) : RetryPolicy :=
  ⟨maxAttempts, .fixed delay, true⟩

def doubling (maxAttempts : UInt32) (initial limit : Millis) : RetryPolicy :=
  ⟨maxAttempts, .exponential initial 2 (some limit), true⟩

def retries (p : RetryPolicy) (f : Failure) : Bool :=
  if f.kind = .timeout then p.retryOnTimeout else f.kind.isRetryable

end RetryPolicy

namespace Retry

inductive Decision where
  | retryAfter (delay : Millis)
  | giveUp (failure : Failure)

def interrupted : Failure := .cancelled "cancelled during retry backoff"

/-- The number of attempts that a policy allows; without one there is a single
attempt. -/
def maxAttempts (policy : Option RetryPolicy) : Nat :=
  match policy with
  | some p => max p.maxAttempts.toNat 1
  | none => 1

def decide (policy : Option RetryPolicy) (attempt : Nat) (f : Failure) : Decision :=
  match policy with
  | none => .giveUp f
  | some p =>
    if !p.retries f then .giveUp f
    else if p.maxAttempts.toNat ≤ attempt then .giveUp (.exhausted attempt f)
    else .retryAfter (p.backoff.delay attempt)

end Retry
end FlowEngine
