import Retention.Store
/-!
# Equality — when two values are equal, and which values can be keys

Values are equal by what they hold where they hold data: numbers and truth values as numbers, texts, containers item by
item, intervals, shared repetitions, reports and snapshots of states by their fields, and all ends of lists.  Every
other value equals only itself: cells and list nodes, heaps, consumers, iterators and errors.  A value that is the very
same is equal without being looked into (`equal_of_same`).

A value can be a key unless it is, or holds by the same account, a list or a dictionary.
-/
namespace Retention

/-- A depth to which no value nests. -/
def nestingBound : Nat := Nat.pow 2 32

namespace Store

mutual
/-- Whether two values are equal. -/
def equalIn (s : Store) : Nat → Value → Value → Bool
  | 0, _, _ => false
  | depth + 1, a, b =>
    a.same b || match a, b with
    | .list _ xs, .list _ ys => s.equalAllIn depth xs ys
    | .tuple _ xs, .tuple _ ys => s.equalAllIn depth xs ys
    | .dict _ xs, .dict _ ys =>
      xs.length == ys.length && xs.all fun x =>
        match ys.find? fun y => s.equalIn depth x.1 y.1 with
        | some y => s.equalIn depth x.2 y.2
        | none => false
    | .nil _, .nil _ => true
    | .interval _ lo hi, .interval _ lo' hi' => s.equalIn depth lo lo' && s.equalIn depth hi hi'
    | .state c p, .state d q => p == q && s.equalStateIn depth (s.snapshot c p) (s.snapshot d q)
    | .shared _ source origin, .shared _ source' origin' =>
      s.equalIn depth source source' && s.equalIn depth origin origin'
    | .unshared _ (.function f), .unshared _ (.function g) => f == g
    | .report q, .report r =>
      let x := s.reportAt q
      let y := s.reportAt r
      x.discipline == y.discipline && s.equalIn depth x.head y.head && s.equalIn depth x.live y.live
        && s.equalIn depth x.peak y.peak && s.equalIn depth x.created y.created
        && s.equalIn depth x.forced y.forced && s.equalAllIn depth x.samples y.samples
    | a, b =>
      match a.int?, b.int? with
      | some m, some n => m == n
      | _, _ => false

/-- Whether two lists of values are equal item by item. -/
def equalAllIn (s : Store) : Nat → List Value → List Value → Bool
  | 0, _, _ => false
  | depth + 1, xs, ys => xs.length == ys.length && (xs.zip ys).all fun p => s.equalIn depth p.1 p.2

/-- Whether two states are equal. -/
def equalStateIn (s : Store) : Nat → CellState → CellState → Bool
  | 0, _, _ => false
  | depth + 1, a, b =>
    match a, b with
    | .suspended t, .suspended u => t.sameFunction u && s.equalAllIn depth t.args u.args
    | .inProgress t, .inProgress u => t.sameFunction u && s.equalAllIn depth t.args u.args
    | .evaluated v, .evaluated w => s.equalIn depth v w
    | .failed e, .failed f => s.equalIn depth e f
    | _, _ => false
end

/-- Whether two values are equal. -/
def equal (s : Store) (a b : Value) : Bool := s.equalIn nestingBound a b

theorem equalIn_of_same (s : Store) (depth : Nat) {a b : Value} (h : a.same b = true) :
    s.equalIn (depth + 1) a b = true := by
  simp [equalIn, h]

theorem equal_of_same (s : Store) {a b : Value} (h : a.same b = true) : s.equal a b = true := by
  rw [equal, show nestingBound = 4294967295 + 1 from rfl]
  exact s.equalIn_of_same _ h

mutual
/-- The name of the type that keeps a value from being a key, if there is one. -/
def unhashableIn (s : Store) : Nat → Value → Option String
  | 0, _ => none
  | depth + 1, v =>
    match v with
    | .list _ _ => some "list"
    | .dict _ _ => some "dict"
    | .tuple _ items => items.findSome? fun item => s.unhashableIn depth item
    | .interval _ lo hi => (s.unhashableIn depth lo).or (s.unhashableIn depth hi)
    | .shared _ source origin => (s.unhashableIn depth source).or (s.unhashableIn depth origin)
    | .state c phase => s.unhashableStateIn depth (s.snapshot c phase)
    | .report r =>
      let report := s.reportAt r
      ([report.head, report.live, report.peak, report.created, report.forced] ++ report.samples).findSome?
        fun field => s.unhashableIn depth field
    | _ => none

/-- The name of the type that keeps a snapshot of a state from being a key, if there is one. -/
def unhashableStateIn (s : Store) : Nat → CellState → Option String
  | 0, _ => none
  | depth + 1, st =>
    match st with
    | .suspended t => t.args.findSome? fun arg => s.unhashableIn depth arg
    | .inProgress t => t.args.findSome? fun arg => s.unhashableIn depth arg
    | .evaluated v => s.unhashableIn depth v
    | .failed e => s.unhashableIn depth e
end

/-- The name of the type that keeps a value from being a key, if there is one: a list, a dictionary, or what holds
them. -/
def unhashable? (s : Store) (v : Value) : Option String := s.unhashableIn nestingBound v

end Store
end Retention
