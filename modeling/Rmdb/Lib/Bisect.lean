import Mathlib.Tactic

namespace Rmdb.Bisect

/-- The halving loop shared by the two binary searches: `half = len >> 1`, then
either skip past the middle or keep the lower half. Each round shrinks `len`, so
`len` itself is enough fuel. -/
def loop (p : Nat → Bool) : Nat → Nat → Nat → Nat
  | 0, first, _ => first
  | fuel + 1, first, len =>
      if 0 < len then
        let half := len / 2
        let middle := first + half
        if p middle then loop p fuel (middle + 1) (len - half - 1) else loop p fuel first half
      else first

/-- If `p` holds exactly below `c` on the searched window, the loop stops at `c`. -/
theorem loop_eq (p : Nat → Bool) (c fuel first len : Nat) (hf : len ≤ fuel)
    (hlo : first ≤ c) (hhi : c ≤ first + len)
    (hp : ∀ i, first ≤ i → i < first + len → (p i = true ↔ i < c)) :
    loop p fuel first len = c := by
  induction fuel generalizing first len with
  | zero => simp only [loop]; omega
  | succ fuel ih =>
      rw [loop]
      by_cases hl : 0 < len
      · have hm := hp (first + len / 2) (by omega) (by omega)
        simp only [hl, if_true]
        by_cases hc : first + len / 2 < c
        · rw [if_pos (hm.2 hc)]
          exact ih _ _ (by omega) (by omega) (by omega) (fun i _ _ => hp i (by omega) (by omega))
        · rw [if_neg (fun h => hc (hm.1 h))]
          exact ih _ _ (by omega) (by omega) (by omega) (fun i _ _ => hp i (by omega) (by omega))
      · rw [if_neg hl]; omega

end Rmdb.Bisect
