import SwitchSynth.Formula.Graph

/-!
# Searching for values

A term is made true by trying values of its variables within bounds. Boxes of values for which the term is
certainly false are passed over; other boxes are halved until they hold a single point, where the term is
evaluated.

What is known of an integer on a box is an interval and, where the term is linear, its coefficients; two
linear terms are compared by the interval of their difference.
-/

namespace SwitchSynth.Formula

/-- The integers from `lo` to `hi`. -/
structure Interval where
  lo : Int
  hi : Int
  deriving DecidableEq, Repr, Inhabited

namespace Interval

def point (n : Int) : Interval := ⟨n, n⟩

def hull (n : Int) (ns : List Int) : Interval :=
  ⟨ns.foldl min n, ns.foldl max n⟩

def union (a b : Interval) : Interval := ⟨min a.lo b.lo, max a.hi b.hi⟩

def add (a b : Interval) : Interval := ⟨a.lo + b.lo, a.hi + b.hi⟩

def neg (a : Interval) : Interval := ⟨-a.hi, -a.lo⟩

def mul (a b : Interval) : Interval :=
  hull (a.lo * b.lo) [a.lo * b.hi, a.hi * b.lo, a.hi * b.hi]

/-- Quotients, for divisors of one sign. -/
def div (a b : Interval) : Interval :=
  hull (a.lo / b.lo) [a.lo / b.hi, a.hi / b.lo, a.hi / b.hi]

/-- Remainders, for divisors of one sign. -/
def mod (a b : Interval) : Interval :=
  if a.lo = a.hi ∧ b.lo = b.hi then point (a.lo % b.lo)
  else if 0 ≤ a.lo ∧ a.hi < b.lo then a
  else ⟨0, max b.hi (-b.lo) - 1⟩

def hasZero (a : Interval) : Bool := a.lo ≤ 0 && 0 ≤ a.hi

end Interval

/-- A linear term: a constant and a coefficient for each variable. -/
structure Linear where
  constant : Int
  coefficients : List Int
  deriving DecidableEq, Repr

namespace Linear

def add (a b : Linear) : Linear :=
  ⟨a.constant + b.constant, List.zipWith (· + ·) a.coefficients b.coefficients⟩

def scale (n : Int) (a : Linear) : Linear :=
  ⟨n * a.constant, a.coefficients.map (n * ·)⟩

def isConstant (a : Linear) : Bool := a.coefficients.all (· == 0)

def range (box : List Interval) (a : Linear) : Interval :=
  (List.zipWith (fun c i => Interval.mul (.point c) i) a.coefficients box).foldl Interval.add
    (.point a.constant)

end Linear

/-- What is known of the values of a term on a box. -/
inductive Known where
  | nothing
  | int (range : Interval) (linear : Option Linear)
  | bool (b : Bool)
  deriving Repr, Inhabited

namespace Known

def ofLinear (box : List Interval) (l : Linear) : Known :=
  .int (l.range box) (some l)

def add (box : List Interval) : Known → Known → Known
  | int _ (some a), int _ (some b) => ofLinear box (a.add b)
  | int a _, int b _ => int (a.add b) none
  | _, _ => nothing

def neg (box : List Interval) : Known → Known
  | int _ (some a) => ofLinear box (a.scale (-1))
  | int a none => int a.neg none
  | _ => nothing

def mul (box : List Interval) : Known → Known → Known
  | int a la, int b lb =>
    match la, lb with
    | some la, some lb =>
      if la.isConstant then ofLinear box (lb.scale la.constant)
      else if lb.isConstant then ofLinear box (la.scale lb.constant)
      else int (a.mul b) none
    | _, _ => int (a.mul b) none
  | _, _ => nothing

def difference (box : List Interval) (a b : Known) : Option Interval :=
  match add box a (neg box b) with
  | int range _ => some range
  | _ => none

/-- What is known of a comparison, given when it certainly holds and when it certainly does not. -/
def decided (range : Option Interval) (holds fails : Interval → Bool) : Known :=
  match range with
  | none => nothing
  | some r => if holds r then bool true else if fails r then bool false else nothing

def all (ks : List Known) : Known :=
  if ks.any fun | bool false => true | _ => false then bool false
  else if ks.all fun | bool true => true | _ => false then bool true
  else nothing

def not : Known → Known
  | bool b => bool (!b)
  | _ => nothing

def equal (box : List Interval) : Known → Known → Known
  | bool a, bool b => bool (a == b)
  | a, b => decided (difference box a b) (fun r => r.lo == 0 && r.hi == 0) (fun r => !r.hasZero)

def choose : Known → Known → Known → Known
  | bool true, a, _ => a
  | bool false, _, b => b
  | _, int a la, int b lb => int (a.union b) (if la = lb then la else none)
  | _, bool a, bool b => if a = b then bool a else nothing
  | _, _, _ => nothing

def divide (f : Interval → Interval → Interval) : Known → Known → Known
  | int a _, int b _ => if b.hasZero then nothing else int (f a b) none
  | _, _ => nothing

end Known

def Op.known (box : List Interval) (op : Op) (args : List Known) : Known :=
  match op, args with
  | .and, args => .all args
  | .or, args => (Known.all (args.map Known.not)).not
  | .not, [a] => a.not
  | .xor, [.bool a, .bool b] => .bool (a != b)
  | .implies, [a, b] => (Known.all [a, b.not]).not
  | .eq, [a, b] => .equal box a b
  | .ite, [c, a, b] => .choose c a b
  | .add, a :: rest => rest.foldl (Known.add box) a
  | .mul, a :: rest => rest.foldl (Known.mul box) a
  | .sub, [a] => a.neg box
  | .sub, [a, b] => a.add box (b.neg box)
  | .div, [a, b] => .divide .div a b
  | .mod, [a, b] => .divide .mod a b
  | .lt, [a, b] => .decided (a.difference box b) (fun r => r.hi < 0) (fun r => 0 ≤ r.lo)
  | .gt, [a, b] => .decided (a.difference box b) (fun r => 0 < r.lo) (fun r => r.hi ≤ 0)
  | .le, [a, b] => .decided (a.difference box b) (fun r => r.hi ≤ 0) (fun r => 0 < r.lo)
  | .ge, [a, b] => .decided (a.difference box b) (fun r => 0 ≤ r.lo) (fun r => r.hi < 0)
  | _, _ => .nothing

def Node.known (names : List String) (box : List Interval) (earlier : Array Known) : Node → Known
  | numeral n => .ofLinear box ⟨n, names.map fun _ => 0⟩
  | truth b => .bool b
  | var name =>
    if name ∈ names then .ofLinear box ⟨0, names.map fun x => if x = name then 1 else 0⟩
    else .nothing
  | bound _ => .nothing
  | app op arguments => op.known box (arguments.map fun i => earlier.getD i .nothing)

namespace Graph

def certainlyFalse (g : Graph) (root : Nat) (names : List String) (box : List Interval) : Bool :=
  let known := g.foldl (fun earlier node => earlier.push (node.known names box earlier)) #[]
  match known.getD root .nothing with
  | .bool false => true
  | _ => false

/-- Values for variables by name; others are zero. -/
def valuation (names : List String) (values : List Int) : Valuation :=
  { named := fun x => (((names.zip values).find? fun p => p.1 == x).map Prod.snd).getD 0 }

/-- Whether a node is true at a point. -/
def holdsAt (g : Graph) (root : Nat) (names : List String) (values : List Int) : Bool :=
  (g.valueAt (valuation names values) root).toBool

end Graph

def widest (box : List Interval) : Nat × Int :=
  box.zipIdx.foldl (fun best (i, k) => if best.2 < i.hi - i.lo then (k, i.hi - i.lo) else best) (0, 0)

/-- The two halves of a box at its widest interval; none if the box is a point. -/
def halves (box : List Interval) : Option (List Interval × List Interval) :=
  let (k, width) := widest box
  if width = 0 then none
  else
    match box[k]? with
    | none => none
    | some i =>
      let middle := i.lo + (i.hi - i.lo) / 2
      some (box.set k ⟨i.lo, middle⟩, box.set k ⟨middle + 1, i.hi⟩)

/-- Search a box, halving it at most so many times in a row. -/
def Graph.searchBox (g : Graph) (root : Nat) (names : List String) :
    Nat → List Interval → Option (List Int)
  | fuel, box =>
    if g.certainlyFalse root names box then none
    else
      match halves box with
      | none =>
        let values := box.map Interval.lo
        if g.holdsAt root names values then some values else none
      | some (left, right) =>
        match fuel with
        | 0 => none
        | fuel + 1 =>
          match g.searchBox root names fuel left with
          | some values => some values
          | none => g.searchBox root names fuel right

/-- How often a box can be halved in a row. -/
def halvings (box : List Interval) : Nat :=
  (box.map fun i => Nat.log2 (i.hi - i.lo).toNat + 1).foldl (· + ·) 0

/-- Values of variables within bounds that make a node true. -/
def Graph.search (g : Graph) (root : Nat) (names : List String) (bounds : Interval) :
    Option (List (String × Int)) :=
  let box := names.map fun _ => bounds
  (g.searchBox root names (halvings box) box).map names.zip

end SwitchSynth.Formula
