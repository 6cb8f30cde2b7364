/-
  Ddm.Pool.IdleTest — the limits of `conn_is_idle_timeout`, as `pool_check` calls it.

  Every operation of `get_time_difference` and of the comparison in the type the C gives
  it: `long` readings of the clock, their difference cut to an `unsigned int`, an `int`
  product compared with it. Signed overflow has no result. Where there is a result it is
  that of `Ddm.Pool.ConnPool` (`connIsIdleTimeout_eq`).

  Proved: the test is exact if and only if no operation overflows (which allows settings up
  to 1073741 seconds) and the time idle, taken modulo 2^32 milliseconds, is on the same
  side of the limit as the time itself (`idle_test_iff`): after 49.7 days a connection is
  fresh again for as long as the limit lasts (`fresh_after_wrap`).
-/

import Ddm.Pool.IdleOrder

namespace Ddm.Pool.IdleTest

open Ddm.Lib
open IdleOrder (millis usecs Normal millis_mono)

/-! ## The operations -/

def int (n : Int) : Option Int := if FitsInt n then some n else none

def long (n : Int) : Option Int := if FitsLong n then some n else none

/-- `tv_sec * 1000 + tv_usec / 1000` -/
def milliseconds (t : Timeval) : Option Int := do
  let seconds ← long (t.tvSec * 1000)
  long (seconds + t.tvUsec.tdiv 1000)

def getTimeDifference (beginTime endTime : Timeval) : Option Nat := do
  let e ← milliseconds endTime
  let b ← milliseconds beginTime
  let passed ← long (e - b)
  some (passed % 2 ^ 32).toNat

def connIsIdleTimeout (c : ConnObj) (maxIdleSeconds : Int) (now : Timeval) : Option Bool := do
  let passedMilis ← getTimeDifference c.lastUsedTime now
  let limit ← int (maxIdleSeconds * 1000)
  some (passedMilis > (limit % 2 ^ 32).toNat)

/-- The call in `pool_check`. -/
def checkIdle (c : ConnObj) (maxIdleSecs : Int) (now : Timeval) : Option Bool := do
  let maxIdleSeconds ← int (maxIdleSecs * 2)
  connIsIdleTimeout c maxIdleSeconds now

section Test

variable {c : ConnObj} {maxIdleSecs : Int} {now : Timeval}

theorem int_eq_some {n m : Int} : int n = some m ↔ FitsInt n ∧ n = m := by
  unfold int
  split <;> simp_all

theorem long_eq_some {n m : Int} : long n = some m ↔ FitsLong n ∧ n = m := by
  unfold long
  split <;> simp_all

/-- The readings of the clock in milliseconds, and their difference, are `long`s. -/
structure ReadingsFit (beginTime endTime : Timeval) : Prop where
  seconds : FitsLong (beginTime.tvSec * 1000) ∧ FitsLong (endTime.tvSec * 1000)
  readings : FitsLong (millis beginTime) ∧ FitsLong (millis endTime)
  passed : FitsLong (millis endTime - millis beginTime)

theorem milliseconds_eq_some {t : Timeval} {n : Int} :
    milliseconds t = some n ↔ FitsLong (t.tvSec * 1000) ∧ FitsLong (millis t) ∧ millis t = n := by
  simp only [milliseconds, Option.bind_eq_bind, Option.bind_eq_some_iff, long_eq_some, millis]
  constructor
  · intro ⟨s, ⟨hs, he⟩, h⟩
    subst he
    exact ⟨hs, h⟩
  · intro ⟨hs, h⟩
    exact ⟨_, ⟨hs, rfl⟩, h⟩

theorem getTimeDifference_eq_some {beginTime endTime : Timeval} {n : Nat} :
    getTimeDifference beginTime endTime = some n ↔
      ReadingsFit beginTime endTime ∧ ((millis endTime - millis beginTime) % 2 ^ 32).toNat = n := by
  simp only [getTimeDifference, Option.bind_eq_bind, Option.bind_eq_some_iff, milliseconds_eq_some, long_eq_some,
    Option.some.injEq]
  constructor
  · intro ⟨e, ⟨hes, hem, he⟩, b, ⟨hbs, hbm, hb⟩, p, ⟨hp, hpe⟩, h⟩
    subst he
    subst hb
    subst hpe
    exact ⟨⟨⟨hbs, hes⟩, ⟨hbm, hem⟩, hp⟩, h⟩
  · intro ⟨⟨⟨hbs, hes⟩, ⟨hbm, hem⟩, hp⟩, h⟩
    exact ⟨_, ⟨hes, hem, rfl⟩, _, ⟨hbs, hbm, rfl⟩, _, ⟨hp, rfl⟩, h⟩

/-- The result of the call, when no operation overflows. -/
theorem checkIdle_eq_some {r : Bool} (hsetting : 0 ≤ maxIdleSecs) : checkIdle c maxIdleSecs now = some r ↔
    FitsInt (maxIdleSecs * 2000) ∧ ReadingsFit c.lastUsedTime now ∧
      decide (maxIdleSecs * 2000 < (millis now - millis c.lastUsedTime) % 2 ^ 32) = r := by
  have hlimit : maxIdleSecs * 2 * 1000 = maxIdleSecs * 2000 := by omega
  have hcompare (n : Nat) (hn : ((millis now - millis c.lastUsedTime) % 2 ^ 32).toNat = n)
      (hfits : FitsInt (maxIdleSecs * 2000)) :
      decide (n > (maxIdleSecs * 2000 % 2 ^ 32).toNat) =
        decide (maxIdleSecs * 2000 < (millis now - millis c.lastUsedTime) % 2 ^ 32) := by
    have hpassed : 0 ≤ (millis now - millis c.lastUsedTime) % 2 ^ 32 := Int.emod_nonneg _ (by decide)
    rw [Int.emod_eq_of_lt (by omega) (Int.lt_trans hfits.2 (by decide)), ← hn]
    generalize (millis now - millis c.lastUsedTime) % 2 ^ 32 = passed at hpassed
    exact decide_eq_decide.mpr (by omega)
  simp only [checkIdle, connIsIdleTimeout, Option.bind_eq_bind, Option.bind_eq_some_iff, int_eq_some,
    getTimeDifference_eq_some, Option.some.injEq]
  constructor
  · intro ⟨_, ⟨_, h2⟩, n, ⟨hread, hn⟩, _, ⟨hfits, hl⟩, hr⟩
    subst h2
    subst hl
    rw [hlimit] at hfits hr
    exact ⟨hfits, hread, (hcompare n hn hfits).symm.trans hr⟩
  · intro ⟨hfits, hread, hr⟩
    have hdouble : FitsInt (maxIdleSecs * 2) := by
      unfold FitsInt at hfits ⊢
      omega
    refine ⟨_, ⟨hdouble, rfl⟩, _, ⟨hread, rfl⟩, _, ⟨by rw [hlimit]; exact hfits, rfl⟩, ?_⟩
    rw [hlimit, hcompare _ rfl hfits]
    exact hr

/-- Where it has a result, it is that of the unsigned arithmetic. -/
theorem connIsIdleTimeout_eq {r : Bool} (h : checkIdle c maxIdleSecs now = some r) :
    Pool.connIsIdleTimeout c (maxIdleSecs * 2) now = r := by
  simp only [checkIdle, connIsIdleTimeout, Option.bind_eq_bind, Option.bind_eq_some_iff, int_eq_some,
    getTimeDifference_eq_some, Option.some.injEq] at h
  obtain ⟨_, ⟨_, h2⟩, n, ⟨-, hn⟩, _, ⟨-, hl⟩, hr⟩ := h
  subst h2
  subst hl
  subst hn
  exact hr

/-- How long the connection has been idle, in whole milliseconds. -/
def idle (c : ConnObj) (now : Timeval) : Int := millis now - millis c.lastUsedTime

/-- The call is defined, and is right about the time and the setting. -/
def Exact (c : ConnObj) (maxIdleSecs : Int) (now : Timeval) : Prop :=
  checkIdle c maxIdleSecs now = some (decide (maxIdleSecs * 2000 < idle c now))

/-- No operation overflows, and the time idle has not wrapped, or not back below the limit. -/
structure InRange (c : ConnObj) (maxIdleSecs : Int) (now : Timeval) : Prop where
  setting : maxIdleSecs ≤ 1073741
  readings : ReadingsFit c.lastUsedTime now
  wrapped : idle c now < 2 ^ 32 ∨ maxIdleSecs * 2000 < idle c now % 2 ^ 32

theorem idle_test_iff (hsetting : 0 ≤ maxIdleSecs) (hbegin : Normal c.lastUsedTime) (hend : Normal now)
    (hle : usecs c.lastUsedTime ≤ usecs now) : Exact c maxIdleSecs now ↔ InRange c maxIdleSecs now := by
  have h0 : 0 ≤ idle c now := Int.sub_nonneg_of_le (millis_mono hbegin hend hle)
  have hfits : FitsInt (maxIdleSecs * 2000) ↔ maxIdleSecs ≤ 1073741 := by
    unfold FitsInt
    omega
  -- below the limit of an `int` the wrapped time can only be too small
  have hside (hs : maxIdleSecs ≤ 1073741) :
      (maxIdleSecs * 2000 < idle c now % 2 ^ 32 ↔ maxIdleSecs * 2000 < idle c now) ↔
        (idle c now < 2 ^ 32 ∨ maxIdleSecs * 2000 < idle c now % 2 ^ 32) := by
    omega
  rw [Exact, checkIdle_eq_some hsetting, decide_eq_decide, hfits]
  constructor
  · intro ⟨hs, hread, h⟩
    exact ⟨hs, hread, (hside hs).mp h⟩
  · intro ⟨hs, hread, h⟩
    exact ⟨hs, hread, (hside hs).mpr h⟩

end Test

/-- A connection last used when the clock was at 0. -/
def sampleConn : ConnObj := connInit (CStr.lit "10.0.0.1") 80 3

theorem idle_test_iff_sample : Exact sampleConn 60 ⟨120, 1000⟩ :=
  (idle_test_iff (by decide) (by decide) (by decide) (by decide)).mpr
    ⟨by decide, ⟨by decide, by decide, by decide⟩, Or.inl (by decide)⟩

/-- After 2^32 milliseconds it is not idle for longer than two minutes. -/
theorem fresh_after_wrap : checkIdle sampleConn 60 ⟨4294967, 296000⟩ = some false ∧
    60 * 2000 < idle sampleConn ⟨4294967, 296000⟩ := by
  decide

end Ddm.Pool.IdleTest
