import Retention.Proofs.ByName
import Retention.Proofs.ByNeed
/-!
# Cost — what the repetition of an interval costs

The courses of both disciplines (`ByNeed.course`, `ByName.course`) carry the counters of the heap from step to step, so
a scenario's report tells how many cells it made and how many forces it completed.  By need a lap after the first costs
one cell and one force for each element, since the list is evaluated already; by name every lap costs what the first
one did.
-/
namespace Retention

theorem Interval.length_eq {lo hi : Int} {m : Nat} (hm : (m : Int) = hi - lo + 1) : (⟨lo, hi⟩ : Interval).length = m := by
  unfold length
  dsimp only
  omega

/-- **What a scenario costs, exactly.**  For all bounds whose interval has `m` elements, not none and a number that can
be taken, for every number of steps `n`, and whatever is traced and sampled.  By need it makes `7 + n` cells and
completes `4 + n` forces, and two more of both for each lap that is over; beyond that, each further element of the list
costs two cells once, and each further node of the list, its end among them, one force once.  By name it makes
`7 + 3 * n` cells and completes `4 + 2 * n` forces, and three more of both for each lap that is over. -/
theorem Scenario.report_costs (p : Program) (s : Store) (lo hi : Int) (n m : Nat) (traces samples : Bool) (hle : lo ≤ hi)
    (hm : (m : Int) = hi - lo + 1) (hlimit : m ≤ sizeLimit) :
    (∃ r e, report p.run ⟨.int lo, .int hi, .int n, .bool traces, .bool samples⟩ .need s = .ok r e ∧
      r.created = .int (7 + n + 2 * (n / m) + 2 * min n (m - 1) : Nat) ∧
      r.forced = .int (4 + n + min n m + 2 * (n / m) : Nat)) ∧
    ∃ r e, report p.run ⟨.int lo, .int hi, .int n, .bool traces, .bool samples⟩ .name s = .ok r e ∧
      r.created = .int (7 + 3 * n + 3 * (n / m) : Nat) ∧ r.forced = .int (4 + 2 * n + 3 * (n / m) : Nat) := by
  let r : Interval := ⟨lo, hi⟩
  obtain rfl : r.length = m := Interval.length_eq hm
  have hpos : 0 < r.length := Interval.length_pos hle
  constructor
  · obtain ⟨e, hrun⟩ := report_eq_ok (ByNeed.course p r s.cells.size s.heaps.size hle hlimit) n samples
      fun m (hm : Opened s traces m) => ByNeed.cycle_eq_ok (r := r) hm
    have hmade : 5 + n + 2 * min (n + 1) r.length + 2 * (n / r.length) =
        7 + n + 2 * (n / r.length) + 2 * min n (r.length - 1) := by omega
    exact ⟨_, e, hrun, congrArg (fun made : Nat => Value.int made) hmade, rfl⟩
  · obtain ⟨e, hrun⟩ := report_eq_ok (ByName.course p r s.cells.size s.heaps.size hle hlimit) n samples
      fun m (hm : Opened s traces m) => ByName.cycle_eq_ok (r := r) hm
    exact ⟨_, e, hrun, rfl, rfl⟩

theorem Scenario.report_costs_instance :
    (3 : Int) ≤ 5 ∧ ((3 : Nat) : Int) = 5 - 3 + 1 ∧ 3 ≤ sizeLimit ∧
    (∃ r e, report (Program.run []) ⟨.int 3, .int 5, .int (7 : Nat), .bool true, .bool false⟩ .need {} = .ok r e ∧
      r.created = .int 22 ∧ r.forced = .int 18) ∧
    ∃ r e, report (Program.run []) ⟨.int 3, .int 5, .int (7 : Nat), .bool true, .bool false⟩ .name {} = .ok r e ∧
      r.created = .int 34 ∧ r.forced = .int 24 := by
  obtain ⟨hneed, hname⟩ := Scenario.report_costs [] {} 3 5 7 3 true false (by decide) (by decide) (by decide)
  exact ⟨by decide, by decide, by decide, hneed, hname⟩

end Retention
