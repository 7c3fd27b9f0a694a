import SwitchSynth.Alu.Fragment

/-!
# Mending small errors

A description with a small error is still read: where one token is missing it is put in, where one token
is too many it is passed over. A token that was put in has a text that says so. A description that cannot
be mended keeps only what it says of itself.
-/

namespace SwitchSynth.Alu

/-- What can be made of the text of a description. -/
inductive Source where
  | whole (d : Description)
  | headerOnly (i : Indicator)

/-- The token that takes the place of an unsuitable one and the wanted one behind it. The text of the
unsuitable token shows where it stands in for a closing parenthesis or is read as part of a name. -/
def passedOver (bad wanted : Token) : Token :=
  match wanted.kind with
  | .rparen => { wanted with text := bad.text }
  | .ident => { wanted with text := bad.text ++ wanted.text }
  | _ => wanted

/-- Pass over the first token if what is wanted comes right behind it. -/
def passOver : Failure → Option (List Token)
  | ⟨bad :: next :: rest, .mark k⟩ =>
    if next.kind = k then some (passedOver bad next :: rest) else none
  | ⟨_ :: next :: rest, .oneOf ks⟩ => if next.kind ∈ ks then some (next :: rest) else none
  | _ => none

def putIn (finish : Position) : Failure → Option (List Token)
  | ⟨rest, .mark k⟩ =>
    let position := (rest.head?.map Token.position).getD finish
    some (⟨k, k.missingText, position⟩ :: rest)
  | _ => none

def readBefore (ts : List Token) (f : Failure) : List Token :=
  ts.take (ts.length - f.rest.length)

/-- Read a description after its indicator, mending at most `budget` errors. -/
def declaredMending (finish : Position) (i : Indicator) : Nat → List Token → Option Description
  | 0, _ => none
  | budget + 1, ts =>
    match Parse.declared (fuelFor ts) i ts with
    | .ok (d, _) => some d
    | .error f =>
      match passOver f with
      | some rest => declaredMending finish i budget (readBefore ts f ++ rest)
      | none =>
        match putIn finish f with
        | none => none
        | some rest =>
          let ts' := readBefore ts f ++ rest
          match Parse.declared (fuelFor ts') i ts' with
          | .ok (d, _) => some d
          | .error f' =>
            if f'.rest.length < f.rest.length then declaredMending finish i budget ts' else none

/-- The indicator at the start of some tokens and the tokens after it. Where there is none, everything up
to the first section stands for it. -/
def indicatorMending (ts : List Token) : Indicator × List Token :=
  match Parse.indicator ts with
  | .ok result => result
  | .error _ =>
    (.unknown ((ts.takeWhile fun t => t.kind ≠ .state).map Token.text),
     ts.dropWhile fun t => t.kind ≠ .state)

/-- Read a description, mending small errors. -/
def Source.read (lexed : Lexed) : Source :=
  let (i, rest) := indicatorMending lexed.visible
  match declaredMending lexed.finish i (rest.length + 1) rest with
  | some d => .whole d
  | none => .headerOnly i

def Source.indicator : Source → Indicator
  | .whole d => d.indicator
  | .headerOnly i => i

end SwitchSynth.Alu
