import Formulary.Assumption.Basic

namespace Formulary

structure Generator where
  state : UInt32

namespace Generator

def step (g : Generator) : Generator := ⟨g.state + 0x6d2b79f5⟩

def word (g : Generator) : UInt32 :=
  let t := g.state
  let t := (t ^^^ (t >>> 15)) * (t ||| 1)
  let t := t ^^^ (t + (t ^^^ (t >>> 7)) * (t ||| 61))
  t ^^^ (t >>> 14)

section

variable {ν : Type} [Number ν]

open Number

/-- The seed is truncated and taken modulo the size of a word. -/
def ofSeed (seed : ν) : Generator :=
  match toRat? seed with
  | some q => ⟨UInt32.ofNat ((Int.tdiv q.num q.den) % 4294967296).toNat⟩
  | none => ⟨0⟩

def uniform (g : Generator) : ν := ofInt g.word.toNat / ofInt 4294967296

end

end Generator

variable {ν : Type} [Number ν]

open Number

structure Range (ν : Type) where
  lo : ν
  hi : ν
  exact : Option ν

namespace Range

def full : Range ν := ⟨-infinity, infinity, none⟩

def span : ν := ofInt 10

def isAbout (name : String) (f : Fact ν) : Bool :=
  match f.subject with
  | .symbol s => s == name
  | _ => false

def meet (r : Range ν) (f : Fact ν) : Range ν :=
  match f.relation with
  | .gt | .ge => { r with lo := max r.lo f.bound }
  | .lt | .le => { r with hi := min r.hi f.bound }
  | .eq => { r with exact := some f.bound }
  | .ne => r

/-- Open ends are closed at a distance from the other end, or around zero. -/
def close (r : Range ν) : Range ν :=
  if r.lo == -infinity then
    if r.hi == infinity then { r with lo := -span, hi := span } else { r with lo := r.hi - span }
  else if r.hi == infinity then { r with hi := r.lo + span }
  else r

def ofFacts (name : String) (facts : List (Fact ν)) : Range ν :=
  ((facts.filter (isAbout name)).foldl meet full).close

/-- The value at `u` between zero and one; a margin keeps it off both ends. -/
def valueAt (r : Range ν) (u : ν) : ν :=
  match r.exact with
  | some x => x
  | none =>
    let margin := (r.hi - r.lo) * ofDecimal ⟨1, -3⟩
    r.lo + margin + u * (r.hi - r.lo - ofInt 2 * margin)

def sample (r : Range ν) (g : Generator) : ν × Generator :=
  match r.exact with
  | some x => (x, g)
  | none => (r.valueAt g.step.uniform, g.step)

end Range

end Formulary
