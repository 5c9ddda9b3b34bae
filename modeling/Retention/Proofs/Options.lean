import Mathlib.Data.List.Perm.Basic
import Retention.CommandLine.Perform
/-!
# Options — the command line is read whatever the order of its options

An integer is read as it was written (`Text.readInteger_toString`).  So each option with its value after an equals sign
is told apart from its argument alone (`Given.ofArgument_argument`), and to apply the options one after the other is to
set one field for each of them, in whatever order (`parse_of_perm`).
-/
namespace Retention

/-! ## Integers as they are written -/

namespace Text

/-- The value of a character that is a digit. -/
def digitOf (c : Char) : Nat := (digitValue? c).getD 0

theorem digitValue?_digitChar {d : Nat} (hd : d < 10) : digitValue? d.digitChar = some d := by
  have all : ∀ e ∈ List.range 10, digitValue? e.digitChar = some e := by decide +kernel
  exact all d (List.mem_range.2 hd)

theorem exists_of_mem_toDigits {n : Nat} {c : Char} (hc : c ∈ Nat.toDigits 10 n) : ∃ d < 10, c = d.digitChar := by
  induction n using Nat.strongRecOn with
  | ind n ih =>
    rw [Nat.toDigits_eq_if (by decide)] at hc
    split at hc
    · next hn => exact ⟨n, hn, List.mem_singleton.1 hc⟩
    · next hn =>
      rcases List.mem_append.1 hc with hc | hc
      · exact ih (n / 10) (Nat.div_lt_self (by omega) (by decide)) hc
      · exact ⟨n % 10, Nat.mod_lt n (by decide), List.mem_singleton.1 hc⟩

theorem digitRun_of_digits {cs : List Char} (hcs : ∀ c ∈ cs, ∃ d < 10, c = d.digitChar) (after : Bool) :
    digitRun after cs = (cs.map digitOf, []) := by
  induction cs generalizing after with
  | nil => rfl
  | cons c cs ih =>
    obtain ⟨⟨d, hd, rfl⟩, hrest⟩ := List.forall_mem_cons.1 hcs
    have hvalue := digitValue?_digitChar hd
    unfold digitRun
    simp only [hvalue, ih hrest, List.map_cons, digitOf, Option.getD_some]

theorem ofDigits_append (ds : List Nat) (d : Nat) : ofDigits (ds ++ [d]) = 10 * ofDigits ds + d := by
  rw [ofDigits, List.foldl_append]
  rfl

/-- **The decimal digits of a number stand for it.** -/
theorem ofDigits_toDigits (n : Nat) : ofDigits ((Nat.toDigits 10 n).map digitOf) = n := by
  have hvalue : ∀ d < 10, digitOf d.digitChar = d := fun d hd => by rw [digitOf, digitValue?_digitChar hd]; rfl
  induction n using Nat.strongRecOn with
  | ind n ih =>
    rw [Nat.toDigits_eq_if (by decide)]
    split
    · next hn => rw [List.map_cons, List.map_nil, hvalue n hn, ofDigits, List.foldl_cons, List.foldl_nil]; omega
    · next hn =>
      rw [List.map_append, List.map_cons, List.map_nil, ofDigits_append, hvalue _ (Nat.mod_lt n (by decide)),
        ih (n / 10) (Nat.div_lt_self (by omega) (by decide))]
      omega

/-- The digits of a number are neither blanks nor signs. -/
theorem plain_of_digit {d : Nat} (hd : d < 10) :
    isBlank d.digitChar = false ∧ d.digitChar ≠ '-' ∧ d.digitChar ≠ '+' ∧ d.digitChar ≠ '=' := by
  have all : ∀ e ∈ List.range 10, isBlank e.digitChar = false ∧ e.digitChar ≠ '-' ∧ e.digitChar ≠ '+' ∧
    e.digitChar ≠ '=' := by decide +kernel
  exact all d (List.mem_range.2 hd)

theorem splitSign_of_digits {cs : List Char} (hcs : ∀ c ∈ cs, ∃ d < 10, c = d.digitChar) :
    splitSign cs = (false, cs) ∧ cs.dropWhile isBlank = cs := by
  cases cs with
  | nil => exact ⟨rfl, rfl⟩
  | cons c cs =>
    obtain ⟨d, hd, rfl⟩ := hcs c List.mem_cons_self
    obtain ⟨hblank, hminus, hplus, -⟩ := plain_of_digit hd
    refine ⟨?_, List.dropWhile_cons_of_neg (by rw [hblank]; exact Bool.false_ne_true)⟩
    unfold splitSign
    split
    · next heq => exact absurd (List.cons.inj heq).1 hminus
    · next heq => exact absurd (List.cons.inj heq).1 hplus
    · rfl

theorem length_toDigits {n : Nat} (hn : n < decimalBound) : (Nat.toDigits 10 n).length ≤ digitLimit := by
  have hk : 0 < digitLimit := by decide
  unfold decimalBound at hn
  -- the limit is made a variable, so that no one computes its power
  generalize digitLimit = k at hn hk ⊢
  exact (Nat.length_toDigits_le_iff (by decide) hk).2 hn

/-- What is read after the sign of an integer. -/
theorem digitRun_toDigits {n : Nat} (hn : n < decimalBound) : ∃ ds, digitRun false (Nat.toDigits 10 n) = (ds, []) ∧
    ds ≠ [] ∧ ds.length ≤ digitLimit ∧ ofDigits ds = n := by
  refine ⟨_, digitRun_of_digits (fun c hc => exists_of_mem_toDigits hc) false, ?_, ?_, ofDigits_toDigits n⟩
  · rw [Ne, List.map_eq_nil_iff]
    exact Nat.toDigits_ne_nil
  · rw [List.length_map]
    exact length_toDigits hn

/-- **An integer is read as it was written.** -/
theorem readInteger_toString {n : Int} (hn : n.natAbs < decimalBound) : readInteger (toString n) = .ok n := by
  have hread : ∀ (cs : List Char) (negative : Bool) (body : List Char) (ds : List Nat),
      splitSign (cs.dropWhile isBlank) = (negative, body) → digitRun false body = (ds, []) → ds ≠ [] →
      ds.length ≤ digitLimit → readInteger (String.ofList cs) =
        .ok (if negative then -(ofDigits ds : Int) else ofDigits ds) := by
    intro cs negative body ds hsign hrun hne hlength
    unfold readInteger
    simp only [String.toList_ofList, hsign, hrun]
    rw [if_neg (Nat.not_lt.2 hlength), if_neg]
    simpa using hne
  cases n with
  | ofNat m =>
    obtain ⟨hsign, hblank⟩ := splitSign_of_digits fun c (hc : c ∈ Nat.toDigits 10 m) => exists_of_mem_toDigits hc
    obtain ⟨ds, hrun, hne, hlength, hvalue⟩ := digitRun_toDigits (n := m) hn
    refine (hread _ false _ ds (by rw [hblank, hsign]) hrun hne hlength).trans ?_
    rw [hvalue]
    rfl
  | negSucc m =>
    obtain ⟨ds, hrun, hne, hlength, hvalue⟩ := digitRun_toDigits (n := m + 1) hn
    have htext : toString (Int.negSucc m) = String.ofList ('-' :: Nat.toDigits 10 (m + 1)) := by
      rw [Int.toString_eq_repr]
      show "-" ++ String.ofList (Nat.toDigits 10 (m + 1)) = _
      rw [String.ofList_cons]
      rfl
    rw [htext]
    refine (hread _ true _ ds rfl hrun hne hlength).trans ?_
    rw [hvalue]
    rfl

end Text

/-! ## Options with their values -/

namespace CommandLine

/-- An option as it is given, with its value in the same argument. -/
inductive Given where
  | mode (m : Mode)
  | lo (n : Int)
  | hi (n : Int)
  | drop (n : Int)
  | trace
  | noSample
deriving DecidableEq, Repr, Inhabited

namespace Given

/-- The argument that gives an option. -/
def argument : Given → String
  | mode m => "--mode=" ++ m.word
  | lo n => "--lo=" ++ toString n
  | hi n => "--hi=" ++ toString n
  | drop n => "--drop=" ++ toString n
  | trace => "--trace"
  | noSample => "--no-sample"

/-- What the argument is told apart as. -/
def word : Given → Word
  | mode m => .flag .mode false (some m.word)
  | lo n => .flag .lo false (some (toString n))
  | hi n => .flag .hi false (some (toString n))
  | drop n => .flag .drop false (some (toString n))
  | trace => .flag .trace false none
  | noSample => .flag .noSample false none

/-- What the option sets. -/
def apply (x : Settings) : Given → Settings
  | mode m => { x with mode := some m }
  | lo n => { x with lo := some n }
  | hi n => { x with hi := some n }
  | drop n => { x with drop := some n }
  | trace => { x with trace := true }
  | noSample => { x with sample := false }

/-- Whether its value can be written and read: it is no integer with too many digits. -/
def Readable : Given → Prop
  | lo n | hi n | drop n => n.natAbs < Text.decimalBound
  | _ => True

/-- An argument with an equals sign gives the option whose spelling stands before it. -/
theorem ofArgument_valued (name : List Char) {w value : String} {f : Flag}
    (hw : w.toList = '-' :: (name ++ '=' :: value.toList)) (hname : '=' ∉ name)
    (hspelled : Flag.ofSpelling? (String.ofList ('-' :: name)) = some f) (hlong : name.head? = some '-') :
    Word.ofArgument w = .ok (.flag f false (some value)) := by
  have hequals : '=' ∈ w.toList := by rw [hw]; simp
  have hsplit : Word.splitEquals w.toList = some ('-' :: name, value.toList) := by
    have hall : ∀ c ∈ '-' :: name, decide (c ≠ '=') = true := fun c hc => by
      rw [decide_eq_true_eq]
      rintro rfl
      rcases List.mem_cons.1 hc with heq | hmem
      · exact absurd heq (by decide)
      · exact hname hmem
    unfold Word.splitEquals
    rw [if_pos hequals, hw, ← List.cons_append, List.takeWhile_append_of_pos hall, List.dropWhile_append_of_pos hall]
    simp
  have hnone : Flag.ofSpelling? w = none := by
    have htable : ∀ entry ∈ Flag.table, '=' ∉ entry.1.toList := by decide +kernel
    unfold Flag.ofSpelling?
    rw [Option.map_eq_none_iff, List.find?_eq_none]
    intro entry hentry heq
    exact htable entry hentry (beq_iff_eq.1 heq ▸ hequals)
  have hshort : Word.isShort (String.ofList ('-' :: name)) = false := by
    unfold Word.isShort
    rw [String.toList_ofList, List.getElem?_cons_succ, ← List.head?_eq_getElem?, hlong]
    rfl
  have hhead : w.toList.head? = some '-' := by rw [hw]; rfl
  have hmany : w.toList.length ≠ 1 := by rw [hw]; simp
  unfold Word.ofArgument
  simp only [hhead, ne_eq, not_true_eq_false, if_false, hnone, if_neg hmany, hsplit, Option.bind_some, hspelled,
    Option.map_some, hshort, String.ofList_toList]

theorem ofArgument_argument (g : Given) : Word.ofArgument g.argument = .ok g.word := by
  cases g with
  | mode m => exact ofArgument_valued "-mode".toList (String.toList_append ..) (by decide) rfl rfl
  | lo n => exact ofArgument_valued "-lo".toList (String.toList_append ..) (by decide) rfl rfl
  | hi n => exact ofArgument_valued "-hi".toList (String.toList_append ..) (by decide) rfl rfl
  | drop n => exact ofArgument_valued "-drop".toList (String.toList_append ..) (by decide) rfl rfl
  | trace => rfl
  | noSample => rfl

theorem argument_ne (g : Given) : g.argument ≠ "--" := by
  intro heq
  have hok : (Word.ofArgument "--").isOk = false := by decide +kernel
  rw [← heq, g.ofArgument_argument] at hok
  cases hok

theorem ofArguments_arguments (gs : List Given) : Word.ofArguments (gs.map argument) = .ok (gs.map word) := by
  induction gs with
  | nil => rfl
  | cons g gs ih =>
    rw [List.map_cons, Word.ofArguments, if_neg g.argument_ne, g.ofArgument_argument, ih]
    rfl

/-- An option that takes a value is applied with the one that came with it. -/
theorem applyAll_valued {x y : Settings} {f : Flag} {value : String} (hf : f.takesValue = true) (hne : value ≠ "--")
    (happly : x.applyValue f value = .ok y) (words : List Word) :
    x.applyAll (.flag f false (some value) :: words) = y.applyAll words := by
  have hbundle : Bundle.ofFlag f false (some value) = .ok ⟨[], f, some value⟩ := by
    unfold Bundle.ofFlag unbundle
    simp only [hf, if_true, String.ofList_toList]
  have hattached : x.applyAttached f value = .ok y := by rw [Settings.applyAttached, if_neg hne, happly]
  unfold Settings.applyAll
  rw [Settings.applyFrom, hbundle]
  show (x.applyAttached f value >>= fun x => x.applyFrom none words) = _
  rw [hattached]
  rfl

theorem ofWord?_word (m : Mode) : Mode.ofWord? m.word = some m ∧ m.word ≠ "--" := by
  rcases m with d | _
  · cases d <;> decide
  · decide

theorem integer_toString {n : Int} (hn : n.natAbs < Text.decimalBound) (f : Flag) :
    Settings.integer f (toString n) = .ok n ∧ toString n ≠ "--" := by
  have hread := Text.readInteger_toString hn
  refine ⟨by rw [Settings.integer, hread], fun heq => ?_⟩
  have hok : (Text.readInteger "--").isOk = false := by decide +kernel
  rw [← heq, hread] at hok
  cases hok

/-- **To apply an option is to set its field.** -/
theorem applyAll_word {g : Given} (hg : g.Readable) (x : Settings) (words : List Word) :
    x.applyAll (g.word :: words) = (g.apply x).applyAll words := by
  cases g with
  | mode m =>
    obtain ⟨hword, hne⟩ := ofWord?_word m
    refine applyAll_valued rfl hne ?_ words
    simp only [Settings.applyValue, hword]
    rfl
  | lo n =>
    obtain ⟨hread, hne⟩ := integer_toString hg .lo
    refine applyAll_valued rfl hne ?_ words
    simp only [Settings.applyValue, hread]
    rfl
  | hi n =>
    obtain ⟨hread, hne⟩ := integer_toString hg .hi
    refine applyAll_valued rfl hne ?_ words
    simp only [Settings.applyValue, hread]
    rfl
  | drop n =>
    obtain ⟨hread, hne⟩ := integer_toString hg .drop
    refine applyAll_valued rfl hne ?_ words
    simp only [Settings.applyValue, hread]
    rfl
  | trace => rfl
  | noSample => rfl

theorem applyAll_words {gs : List Given} (hgs : ∀ g ∈ gs, g.Readable) (x : Settings) :
    x.applyAll (gs.map word) = .ok (gs.foldl apply x, []) := by
  induction gs generalizing x with
  | nil => rfl
  | cons g gs ih =>
    obtain ⟨hg, hrest⟩ := List.forall_mem_cons.1 hgs
    rw [List.map_cons, applyAll_word hg, ih hrest, List.foldl_cons]

/-- The field that an option sets. -/
def flag : Given → Flag
  | mode _ => .mode
  | lo _ => .lo
  | hi _ => .hi
  | drop _ => .drop
  | trace => .trace
  | noSample => .noSample

/-- Options for different fields can be applied in either order. -/
theorem apply_comm {g k : Given} (h : g = k ∨ g.flag ≠ k.flag) (x : Settings) :
    k.apply (g.apply x) = g.apply (k.apply x) := by
  rcases h with rfl | h
  · rfl
  · cases g <;> cases k <;> first | rfl | exact absurd rfl h

end Given

section
variable (mode : Mode) (lo hi n : Int) (trace noSample : Bool)

/-- The options that tell everything of what is to be run. -/
def options : List Given :=
  [.mode mode, .lo lo, .hi hi, .drop n] ++ (if trace then [.trace] else []) ++ (if noSample then [.noSample] else [])

/-- Their arguments, in one order. -/
def arguments : List String :=
  ["--mode=" ++ mode.word, "--lo=" ++ toString lo, "--hi=" ++ toString hi, "--drop=" ++ toString n] ++
    (if trace then ["--trace"] else []) ++ (if noSample then ["--no-sample"] else [])

/-- What they set. -/
def settings : Settings where
  mode := some mode
  lo := some lo
  hi := some hi
  drop := some n
  trace := trace
  sample := !noSample

theorem arguments_eq : arguments mode lo hi n trace noSample = (options mode lo hi n trace noSample).map Given.argument := by
  cases trace <;> cases noSample <;> rfl

theorem foldl_options : (options mode lo hi n trace noSample).foldl Given.apply {} = settings mode lo hi n trace noSample := by
  cases trace <;> cases noSample <;> rfl

/-- No option is given twice. -/
theorem options_apart : ∀ g ∈ options mode lo hi n trace noSample, ∀ k ∈ options mode lo hi n trace noSample,
    g = k ∨ g.flag ≠ k.flag := by
  cases trace <;> cases noSample <;> simp [options, Given.flag]

variable {mode lo hi n trace noSample}

/-- **The options are read in whatever order they are given.** -/
theorem parse_of_perm {args : List String} (hargs : args.Perm (arguments mode lo hi n trace noSample))
    (hlo : lo.natAbs < Text.decimalBound) (hhi : hi.natAbs < Text.decimalBound) (hn : n.natAbs < Text.decimalBound) :
    parse args = if n < 0 then .error (.misuse .negativeDrop) else .ok (settings mode lo hi n trace noSample) := by
  obtain ⟨gs, rfl, hperm⟩ : ∃ gs : List Given, args = gs.map Given.argument ∧ gs.Perm (options mode lo hi n trace noSample) := by
    rw [arguments_eq] at hargs
    exact (congrFun₂ (List.eq_map_comp_perm Given.argument) args _).mpr hargs
  have hreadable : ∀ g ∈ gs, g.Readable := fun g hg => by
    have hmem := hperm.subset hg
    simp only [options, List.mem_append, List.mem_cons, List.not_mem_nil, or_false] at hmem
    rcases hmem with ((rfl | rfl | rfl | rfl) | hmem) | hmem
    · trivial
    · exact hlo
    · exact hhi
    · exact hn
    · split at hmem
      · rw [List.mem_singleton.1 hmem]; trivial
      · exact absurd hmem List.not_mem_nil
    · split at hmem
      · rw [List.mem_singleton.1 hmem]; trivial
      · exact absurd hmem List.not_mem_nil
  have hset : gs.foldl Given.apply {} = settings mode lo hi n trace noSample := by
    rw [← foldl_options]
    refine hperm.foldl_eq' (fun g hg k hk x => ?_) ({} : Settings)
    exact Given.apply_comm (options_apart mode lo hi n trace noSample g (hperm.subset hg) k (hperm.subset hk)) x
  unfold parse
  rw [Given.ofArguments_arguments]
  show (({} : Settings).applyAll (gs.map Given.word) >>= _) = _
  rw [Given.applyAll_words hreadable, hset]
  show (if (some n).any (· < 0) then _ else _) = _
  by_cases hneg : n < 0
  · rw [if_pos hneg, if_pos (by simpa using hneg)]
    rfl
  · rw [if_neg hneg, if_neg (by simpa using hneg)]
    rfl

end
end CommandLine
end Retention
