import Retention.Proofs.Isolation
import Retention.Proofs.Options
/-!
# Printing — what is printed for a command line

A command line is read as its options (`Options`), it runs a scenario for each discipline (`Isolation`), and prints what
the scenarios tell.  Here that is told in the characters of the output.  All counts of a report are bounded by the number
of cells that were made, so they can all be written if this one can; and an error that ends a run comes with its first
scenario, before anything is printed.
-/
namespace Retention

/-! ## What is written -/

theorem integerText_eq_ok {n : Int} (hn : n.natAbs < Text.decimalBound) : integerText n = .ok (toString n) := by
  have hdigits : Text.decimal? n = some (toString n) := (Text.decimal?_eq_some_iff n _).2 ⟨hn, rfl⟩
  unfold integerText
  rw [hdigits]

/-- Texts may nest deep enough for all that is written here. -/
theorem exists_textDepth : ∃ k, textDepth = k + 1 + 1 + 1 := ⟨4294967293, rfl⟩

namespace Store
variable {s : Store}

theorem textIn_int (depth : Nat) {n : Int} (hn : n.natAbs < Text.decimalBound) :
    s.textIn (depth + 1) (.int n) = .ok (toString n) := by
  obtain ⟨k, hk⟩ := exists_textDepth
  unfold textIn written
  rw [hk]
  simp only [writtenIn, integerText_eq_ok hn]

theorem text_int {n : Int} (hn : n.natAbs < Text.decimalBound) : s.text (.int n) = .ok (toString n) := by
  obtain ⟨k, hk⟩ := exists_textDepth
  unfold text
  rw [hk]
  exact textIn_int _ hn

theorem reportText_eq_ok (d : Discipline) {head live peak created forced : Int} (samples : List Value)
    (hhead : head.natAbs < Text.decimalBound) (hlive : live.natAbs < Text.decimalBound)
    (hpeak : peak.natAbs < Text.decimalBound) (hcreated : created.natAbs < Text.decimalBound)
    (hforced : forced.natAbs < Text.decimalBound) :
    s.reportText ⟨d, .int head, .int live, .int peak, .int created, .int forced, samples⟩ =
      .ok (d.word ++ ": head=" ++ toString head ++ " live=" ++ toString live ++ " peak=" ++ toString peak ++
        " created=" ++ toString created ++ " forced=" ++ toString forced) := by
  obtain ⟨k, hk⟩ := exists_textDepth
  unfold reportText
  rw [hk]
  unfold reportTextIn
  rw [textIn_int _ hhead, textIn_int _ hlive, textIn_int _ hpeak, textIn_int _ hcreated, textIn_int _ hforced]
  rfl

theorem mapM_text_int (counts : List Nat) (hcounts : ∀ n ∈ counts, n < Text.decimalBound) :
    (counts.map fun n : Nat => Value.int n).mapM s.text = .ok (counts.map toString) := by
  induction counts with
  | nil => rfl
  | cons n counts ih =>
    obtain ⟨hn, hrest⟩ := List.forall_mem_cons.1 hcounts
    rw [List.map_cons, List.mapM_cons, text_int (n := n) hn, ih hrest]
    rfl

theorem written_listEnd {c : CellId} (hc : s.state c = .evaluated .listEnd) :
    s.written (.cell c) = .ok s!"<Cell #{s.address c} = Nil>" := by
  obtain ⟨k, hk⟩ := exists_textDepth
  unfold written
  rw [hk]
  simp only [writtenIn, Nesting.following, stateTextIn, hc, Value.listEnd]
  refine congrArg Except.ok ?_
  simp only [String.append_assoc]
  rfl

/-- What an error tells of a list that cannot be repeated: below its message the cell of the list, at its end. -/
theorem info_emptyCycle {x : FaultId} {address : Nat} {c : CellId}
    (hx : s.faults[x]? = some ⟨.emptyCycle address, [.cell c]⟩) (hc : s.state c = .evaluated .listEnd)
    (haddress : s.address c = address) : s.info x =
      .ok ("EmptySequenceError: " ++ Fault.emptyCycleText (toString address) ++ s!"\n    | <Cell #{address} = Nil>") := by
  have hmessage : s.message x = .ok (Fault.emptyCycleText (toString address)) := message_eq hx rfl (by simp [Fault.kind])
  unfold info
  rw [hmessage, raised_eq hx]
  simp only [List.mapM_cons, List.mapM_nil, written_listEnd hc, haddress]
  refine congrArg Except.ok ?_
  rw [List.map_cons, List.map_nil, String.join_cons, String.join_nil, String.append_empty]
  simp only [String.append_assoc]
  rfl

end Store

/-! ## The lines of a report -/

namespace Discipline

/-- The line that sums up the report of a scenario over `m` elements, of which `n` are dropped, whatever is traced and
sampled. -/
def reportLine (d : Discipline) (head : Int) (m n : Nat) : String :=
  d.word ++ ": head=" ++ toString head ++ " live=" ++ toString (d.retained m n) ++ " peak=" ++ toString (d.retained m n) ++
    " created=" ++ toString (d.made m n) ++ " forced=" ++ toString (d.forced m n)

/-- The line that tells the samples that were taken. -/
def traceLine (d : Discipline) (m n : Nat) : String :=
  " ".intercalate ((d.word ++ " live counts:") :: (d.kept m n true true).map toString)

/-- What is printed for a scenario. -/
def lines (d : Discipline) (head : Int) (m n : Nat) (trace : Bool) : List String :=
  (if trace then [d.traceLine m n] else []) ++ [d.reportLine head m n]

variable {m n : Nat}

theorem retained_le_made (d : Discipline) (hm : 0 < m) : d.retained m n ≤ d.made m n := by
  cases d with
  | need => simp only [retained, made]; omega
  | name => simp only [retained, made]; omega

theorem forced_le_made (d : Discipline) (hm : 0 < m) : d.forced m n ≤ d.made m n := by
  cases d with
  | need => simp only [forced, made]; omega
  | name => simp only [forced, made]; omega

/-- No sample is above what is live at the end. -/
theorem le_retained_of_mem_kept (d : Discipline) {traces samples : Bool} {live : Nat}
    (hlive : live ∈ d.kept m n traces samples) : live ≤ d.retained m n := by
  cases traces with
  | false => cases d <;> exact absurd hlive List.not_mem_nil
  | true =>
    cases d with
    | need =>
      rcases List.mem_append.1 hlive with hsampled | hlast
      · cases samples with
        | false => exact absurd hsampled List.not_mem_nil
        | true =>
          rcases List.mem_cons.1 hsampled with rfl | hstep
          · simp only [retained]; omega
          · obtain ⟨i, hi, rfl⟩ := List.mem_map.1 hstep
            have hlt := List.mem_range.1 hi
            simp only [retained]; omega
      · exact Nat.le_of_eq (List.mem_singleton.1 hlast)
    | name =>
      rcases List.mem_append.1 hlive with hsampled | hlast
      · cases samples with
        | false => exact absurd hsampled List.not_mem_nil
        | true =>
          rcases List.mem_cons.1 hsampled with rfl | hstep
          · simp only [retained]; omega
          · rw [(List.mem_replicate.1 hstep).2]
            simp only [retained]; omega
      · exact Nat.le_of_eq (List.mem_singleton.1 hlast)

end Discipline

namespace CommandLine

theorem printable_ok (lines : List String) : printable (lines.map .ok) = (lines, none) := by
  induction lines with
  | nil => rfl
  | cons line lines ih => rw [List.map_cons, printable, ih]

/-- **All lines of a report can be written, if the number of cells that were made can be.** -/
theorem reportLines_reported (s : Store) (x : Settings) (d : Discipline) (r : Interval) (n : Nat) (samples : Bool)
    (hsamples : x.trace = true → samples = true) (hne : r.lo ≤ r.hi) (hlo : r.lo.natAbs < Text.decimalBound)
    (hhi : r.hi.natAbs < Text.decimalBound) (hmade : d.made r.length n < Text.decimalBound) :
    reportLines s x (d.reported r n x.trace samples) =
      (d.lines (r.lo + (n % r.length : Nat)) r.length n x.trace).map .ok := by
  have hpos := Interval.length_pos hne
  have hlive : d.retained r.length n < Text.decimalBound := Nat.lt_of_le_of_lt (d.retained_le_made hpos) hmade
  have hforced : d.forced r.length n < Text.decimalBound := Nat.lt_of_le_of_lt (d.forced_le_made hpos) hmade
  have hhead : (r.lo + (n % r.length : Nat)).natAbs < Text.decimalBound := by
    have hlt := Nat.mod_lt n hpos
    have hend := r.hi_lt_end
    have hlength : r.length = (r.hi - r.lo + 1).toNat := rfl
    omega
  have hsummary : s.reportText (d.reported r n x.trace samples) =
      .ok (d.reportLine (r.lo + (n % r.length : Nat)) r.length n) :=
    Store.reportText_eq_ok d _ hhead hlive hlive hmade hforced
  unfold reportLines Discipline.lines
  rw [hsummary]
  cases htrace : x.trace with
  | false => rfl
  | true =>
    obtain rfl := hsamples htrace
    have hcounts := Store.mapM_text_int (s := s) (d.kept r.length n true true) fun live hmem =>
      Nat.lt_of_le_of_lt (Discipline.le_retained_of_mem_kept d hmem) hlive
    unfold Discipline.reported
    simp only [hcounts]
    rfl

section
variable {x : Settings} {r : Interval} {drop : Int} {samples : Bool}

/-- Scenarios that can be counted are reported one after the other. -/
theorem runAll_counted (hsamples : x.trace = true → samples = true) (hne : r.lo ≤ r.hi) (hr : r.length ≤ sizeLimit)
    (hlo : r.lo.natAbs < Text.decimalBound) (hhi : r.hi.natAbs < Text.decimalBound) {ds : List Discipline}
    (hmade : ∀ d ∈ ds, d.made r.length drop.toNat < Text.decimalBound) (s : Store) : ∃ f,
    runAll x ⟨.int r.lo, .int r.hi, .int drop, .bool x.trace, .bool samples⟩ s ds =
      (ds.flatMap fun d => d.lines (r.lo + (drop.toNat % r.length : Nat)) r.length drop.toNat x.trace, [], .exited 0, f) := by
  induction ds generalizing s with
  | nil => exact ⟨s, rfl⟩
  | cons d ds ih =>
    obtain ⟨hd, hrest⟩ := List.forall_mem_cons.1 hmade
    obtain ⟨e, hreport, -⟩ := Scenario.report_counted [] s d r drop x.trace samples hne hr
    obtain ⟨f, hrun⟩ := ih hrest e
    have hlines := reportLines_reported e x d r drop.toNat samples hsamples hne hlo hhi hd
    refine ⟨f, ?_⟩
    unfold runAll
    rw [hreport]
    simp only [hlines, printable_ok, hrun]
    rfl

/-- The first scenario over an empty interval ends the run: its error is all that is printed. -/
theorem runAll_empty (hempty : r.hi < r.lo) (drop : Int) (samples : Bool) (d : Discipline) (ds : List Discipline)
    (s : Store) : ∃ f,
    runAll x ⟨.int r.lo, .int r.hi, .int drop, .bool x.trace, .bool samples⟩ s (d :: ds) =
      ([], ["EmptySequenceError: " ++ Fault.emptyCycleText (toString d.emptyAddress) ++
        s!"\n    | <Cell #{d.emptyAddress} = Nil>"], .exited 1, f) := by
  obtain ⟨y, f, hreport, -, hbarren⟩ := Scenario.report_barren [] s d r drop x.trace samples (.inl hempty)
  obtain ⟨c, hfault, hc, haddress⟩ : ∃ c, f.faults[y]? = some ⟨.emptyCycle d.emptyAddress, [.cell c]⟩ ∧
      f.state c = .evaluated .listEnd ∧ f.address c = d.emptyAddress := by
    rcases hbarren with ⟨-, hbarren⟩ | ⟨hlong, -⟩
    · exact hbarren
    · rw [r.length_eq_zero_iff.2 hempty] at hlong
      exact absurd hlong (Nat.not_lt_zero _)
  have hmessage := Store.message_eq hfault rfl (by simp [Fault.kind])
  have hinfo := Store.info_emptyCycle hfault hc haddress
  have hown : (f.raised y).cause.kind.isOwn = true := by rw [Store.raised_eq hfault]; rfl
  refine ⟨f, ?_⟩
  unfold runAll
  rw [hreport]
  simp only [hmessage, hinfo, hown, if_true]

/-- Without a log, what is printed is what the run tells. -/
theorem performSettings_of_runAll {mode : Mode} {out err : List String} {ending : Ending} {f : Store}
    (hdrop : x.drop = some drop) (hmode : x.mode = some mode) (hquiet : x.verbose = false)
    (hrun : runAll x (x.scenario drop) {} mode.disciplines = (out, err, ending, f)) :
    performSettings x = ⟨unlines out, unlines err, ending⟩ := by
  unfold performSettings
  simp only [hdrop, hmode, hrun, hquiet]
  rfl

end

/-- A mode runs a scenario by need first, unless by name is all that it runs. -/
theorem Mode.exists_disciplines (mode : Mode) : ∃ d ds, mode.disciplines = d :: ds ∧
    d.emptyAddress = if mode = .only .name then 2 else 1 := by
  rcases mode with d | _
  · cases d <;> exact ⟨_, _, rfl, rfl⟩
  · exact ⟨_, _, rfl, rfl⟩

/-- **What the program prints.**  For every mode, all bounds whose interval has no more elements than can be counted, and
every number of elements to drop, with or without a trace and samples, and in whatever order the options are given: a
negative number to drop is a misuse; an empty interval is the error of the first discipline, and nothing else is printed;
otherwise the report of each discipline is printed, below the samples it took if they are to be traced.  All integers are
within the limit on digits: those that are given, and the number of cells made, the greatest of those that are printed. -/
theorem perform_of_perm {mode : Mode} {lo hi n : Int} {trace noSample : Bool} {args : List String}
    (hargs : args.Perm (arguments mode lo hi n trace noSample)) (hlimit : hi - lo + 1 ≤ sizeLimit)
    (hlo : lo.natAbs < Text.decimalBound) (hhi : hi.natAbs < Text.decimalBound) (hn : n.natAbs < Text.decimalBound) :
    (n < 0 → perform args =
      ⟨"", usage ++ "lazyheap: error: Number of elements to drop must not be negative\n", .exited 2⟩) ∧
    (0 ≤ n → hi < lo → let k := if mode = .only .name then 2 else 1; perform args =
      ⟨"", s!"EmptySequenceError: Cannot cycle an empty list (cell #{k})\n    | <Cell #{k} = Nil>\n", .exited 1⟩) ∧
    (0 ≤ n → lo ≤ hi → (∀ d ∈ mode.disciplines, d.made (hi - lo + 1).toNat n.toNat < Text.decimalBound) → perform args =
      ⟨unlines (mode.disciplines.flatMap fun d => d.lines (lo + n % (hi - lo + 1)) (hi - lo + 1).toNat n.toNat trace), "",
        .exited 0⟩) := by
  let r : Interval := ⟨lo, hi⟩
  let x := settings mode lo hi n trace noSample
  have hparse := parse_of_perm hargs hlo hhi hn
  have hperform : 0 ≤ n → perform args = performSettings x := fun h => by
    rw [if_neg (Int.not_lt.2 h)] at hparse
    unfold perform
    rw [hparse]
  refine ⟨fun hneg => ?_, fun hpos hempty => ?_, fun hpos hne hmade => ?_⟩
  · rw [if_pos hneg] at hparse
    unfold perform
    rw [hparse]
    rfl
  · -- the first discipline fails, and the second, if there is one, is not reached
    obtain ⟨d, ds, hds, haddress⟩ := mode.exists_disciplines
    obtain ⟨f, hrun⟩ := runAll_empty (x := x) (r := r) hempty n (!noSample || trace) d ds {}
    refine (hperform hpos).trans ?_
    rw [performSettings_of_runAll rfl rfl rfl (hds ▸ hrun), haddress]
    split <;> rfl
  · have hlength : r.length ≤ sizeLimit := by unfold Interval.length; simp only [r]; omega
    have hsamples : x.trace = true → (!noSample || trace) = true := fun htrace => by
      rw [show trace = true from htrace, Bool.or_true]
    obtain ⟨f, hrun⟩ := runAll_counted (x := x) hsamples hne hlength hlo hhi hmade {}
    have hhead : r.lo + (n.toNat % r.length : Nat) = lo + n % (hi - lo + 1) := by
      rw [Int.natCast_emod, Int.toNat_of_nonneg hpos]
      unfold Interval.length
      rw [Int.toNat_of_nonneg (by simp only [r]; omega)]
    refine (hperform hpos).trans ((performSettings_of_runAll rfl rfl rfl hrun).trans ?_)
    rw [hhead]
    rfl

/-- A run of both disciplines with a trace, one over an empty interval, and a misuse. -/
theorem perform_of_perm_both :
    ["--trace", "--hi=5", "--drop=4", "--mode=both", "--lo=3"].Perm (arguments .both 3 5 4 true false) ∧
    ["--drop=0", "--lo=1", "--hi=-1", "--no-sample", "--mode=name"].Perm (arguments (.only .name) 1 (-1) 0 false true) ∧
    ["--lo=1", "--hi=2", "--mode=need", "--drop=-3"].Perm (arguments (.only .need) 1 2 (-3) false false) ∧
    perform ["--trace", "--hi=5", "--drop=4", "--mode=both", "--lo=3"] = ⟨unlines [
      "need live counts: 2 6 9 12 13 14",
      "need: head=4 live=14 peak=14 created=17 forced=13",
      "name live counts: 1 3 3 3 3 5",
      "name: head=4 live=5 peak=5 created=22 forced=15"], "", .exited 0⟩ ∧
    perform ["--drop=0", "--lo=1", "--hi=-1", "--no-sample", "--mode=name"] =
      ⟨"", "EmptySequenceError: Cannot cycle an empty list (cell #2)\n    | <Cell #2 = Nil>\n", .exited 1⟩ ∧
    perform ["--lo=1", "--hi=2", "--mode=need", "--drop=-3"] =
      ⟨"", usage ++ "lazyheap: error: Number of elements to drop must not be negative\n", .exited 2⟩ := by
  have hboth : ["--trace", "--hi=5", "--drop=4", "--mode=both", "--lo=3"].Perm (arguments .both 3 5 4 true false) := by
    decide +kernel
  have hname : ["--drop=0", "--lo=1", "--hi=-1", "--no-sample", "--mode=name"].Perm
      (arguments (.only .name) 1 (-1) 0 false true) := by decide +kernel
  have hneed : ["--lo=1", "--hi=2", "--mode=need", "--drop=-3"].Perm (arguments (.only .need) 1 2 (-3) false false) := by
    decide +kernel
  obtain ⟨-, -, hprinted⟩ := perform_of_perm hboth (by decide) (by decide +kernel) (by decide +kernel) (by decide +kernel)
  obtain ⟨-, hempty, -⟩ := perform_of_perm hname (by decide) (by decide +kernel) (by decide +kernel) (by decide +kernel)
  obtain ⟨hmisuse, -, -⟩ := perform_of_perm hneed (by decide) (by decide +kernel) (by decide +kernel) (by decide +kernel)
  refine ⟨hboth, hname, hneed, (hprinted (by decide) (by decide) (by decide +kernel)).trans ?_, hempty (by decide) (by decide),
    hmisuse (by decide)⟩
  decide +kernel

end CommandLine
end Retention
