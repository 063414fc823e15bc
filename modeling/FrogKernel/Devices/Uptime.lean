import FrogKernel.Devices.Pit

/-!
# The clock over long uptimes (`devices/pit/pit.c`)

A second is counted whenever the 32-bit tick counter is a multiple of `PIT_HZ`,
which `2 ^ 32` is not.

Main result: `uptime_iff`, after which numbers of ticks the clock is right.
-/

namespace FrogKernel.Pit

open FrogKernel.Calendar FrogKernel.Runs

/-- `n` callbacks, of which `k` advance the clock by a second. -/
inductive Ticked (s₀ : PitState) : Nat → Nat → PitState → Prop
  | boot : Ticked s₀ 0 0 s₀
  | tick {n k : Nat} {s u : PitState} {calls : List PitCall} : Ticked s₀ n k s →
      PitStep s calls u → Ticked s₀ (n + 1) (k + if Counts s then 1 else 0) u

theorem ticked_exists (s₀ : PitState) (n : Nat) : ∃ k s, Ticked s₀ n k s := by
  induction n with
  | zero => exact ⟨0, s₀, .boot⟩
  | succ n ih =>
    obtain ⟨k, s, h⟩ := ih
    exact ⟨_, _, h.tick (.tick s s.currThread s.schedulePending)⟩

/-- `k` is by how much the clock has moved on. -/
theorem Ticked.instant_eq {s₀ s : PitState} {n k : Nat} (h : Ticked s₀ n k s)
    (h₀ : Valid s₀.currTime.dateTime)
    (hyear : ∀ n' k' s', n' < n → Ticked s₀ n' k' s' → s'.currTime.year < 65535) :
    Valid s.currTime.dateTime ∧
      instant s.currTime.dateTime = instant s₀.currTime.dateTime + k := by
  induction h with
  | boot => exact ⟨h₀, rfl⟩
  | @tick n k s u calls h hstep ih =>
    obtain ⟨hvalid, hinst⟩ := ih fun n' k' s' hn h' => hyear n' k' s' (Nat.lt_succ_of_lt hn) h'
    have hnext := pitStep_spec hstep hvalid (hyear n k s (Nat.lt_succ_self n) h)
    exact ⟨hnext.1, by rw [hnext.2, hinst, Nat.add_assoc]⟩

/-- A full turn of the counter counts the multiples of 1000 below `2 ^ 32`, zero
among them. -/
theorem Ticked.count {s₀ s : PitState} {n k : Nat} (h : Ticked s₀ n k s) (h₀ : s₀.ticks = 0) :
    s.ticks = n % 2 ^ 32 ∧ k = n / 2 ^ 32 * 4294968 + n % 2 ^ 32 / PIT_HZ := by
  induction h with
  | boot => exact ⟨h₀, rfl⟩
  | @tick n k s u calls h hstep ih =>
    obtain ⟨hticks, hk⟩ := ih
    cases hstep with
    | tick currThread schedulePending =>
      have hmod : (n % 2 ^ 32 + 1) % 2 ^ 32 = (n + 1) % 2 ^ 32 := by omega
      refine ⟨?_, ?_⟩
      · simp only [pitCallback, hticks, hmod]
      · simp only [Counts, hticks, hmod, hk]
        by_cases hwrap : n % 2 ^ 32 + 1 = 2 ^ 32
        · have hq : (n + 1) / 2 ^ 32 = n / 2 ^ 32 + 1 := by omega
          have hr : (n + 1) % 2 ^ 32 = 0 := by omega
          have hlast : n % 2 ^ 32 = 2 ^ 32 - 1 := by omega
          rw [hq, hr, hlast, if_pos (Nat.zero_mod _)]
          simp only [PIT_HZ]
          omega
        · have hq : (n + 1) / 2 ^ 32 = n / 2 ^ 32 := by omega
          have hr : (n + 1) % 2 ^ 32 = n % 2 ^ 32 + 1 := by omega
          have hdiv : (n % 2 ^ 32 + 1) / PIT_HZ =
              n % 2 ^ 32 / PIT_HZ + if PIT_HZ ∣ n % 2 ^ 32 + 1 then 1 else 0 := Nat.succ_div
          simp only [Nat.dvd_iff_mod_eq_zero] at hdiv
          rw [hq, hr, hdiv, Nat.add_assoc]

/-- **Uptime.**  After `n` ticks from boot the clock has moved on by
`n / PIT_HZ` seconds exactly when the counter has not wrapped, or has wrapped
once and the last second is nearly over. -/
theorem uptime_iff {s₀ s : PitState} {n k : Nat} (h₀ : s₀.ticks = 0) (h : Ticked s₀ n k s) :
    k = n / PIT_HZ ↔ n < 2 ^ 32 ∨ n < 2 ^ 33 ∧ 704 ≤ (n - 2 ^ 32) % PIT_HZ := by
  have hk := (h.count h₀).2
  have hdiv : n = n / 2 ^ 32 * 2 ^ 32 + n % 2 ^ 32 := by omega
  generalize n / 2 ^ 32 = q at *
  have hr : n % 2 ^ 32 < 2 ^ 32 := Nat.mod_lt _ (by decide)
  generalize n % 2 ^ 32 = r at *
  simp only [PIT_HZ] at *
  subst hdiv hk
  omega

/-- The clock of a machine that was just switched on. -/
def justBooted : PitState where
  ticks := 0
  currTime := ⟨0, 0, 12, 1, 1, 2025⟩
  currThread := false
  schedulePending := false

theorem firstTick_uptime : ∃ k s, Ticked justBooted 1 k s ∧
    (k = 1 / PIT_HZ ↔ 1 < 2 ^ 32 ∨ 1 < 2 ^ 33 ∧ 704 ≤ (1 - 2 ^ 32) % PIT_HZ) := by
  have h := Ticked.boot.tick (.tick justBooted false false)
  exact ⟨_, _, h, uptime_iff rfl h⟩

/-- When the counter wraps, a second is counted 704 ticks early. -/
theorem wrappedClock_fast : ¬ ∀ (s₀ s : PitState) (n k : Nat), s₀.ticks = 0 → Ticked s₀ n k s →
    k = n / PIT_HZ := by
  intro hall
  obtain ⟨k, s, h⟩ := ticked_exists justBooted (2 ^ 32)
  have hk := (h.count rfl).2
  rw [hall _ _ _ _ rfl h] at hk
  exact absurd hk (by decide)

end FrogKernel.Pit
