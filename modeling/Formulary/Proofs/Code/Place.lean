import Formulary.Code.Emit
import Formulary.Proofs.Code.Agreement
import Formulary.Proofs.Code.Form
import Formulary.Proofs.Code.Names
import Mathlib

namespace Formulary

inductive Expr.Frame (ν : Type) where
  | term (before after : List (Expr ν))
  | factor (before after : List (Expr ν))
  | base (exponent : Expr ν)
  | exponent (base : Expr ν)
  | argument (head : String) (before after : List (Expr ν))
  | inner
  | item (before after : List (Expr ν))

inductive Code.Frame where
  | argument (callee : String) (before after : List Code)
  | item (before after : List Code)
  | paren
  | base (exponent : Code)
  | exponent (base : Code)
  | negative
  | mulLeft (right : Code)
  | mulRight (left : Code)
  | divLeft (right : Code)
  | divRight (left : Code)
  | addLeft (right : Code)
  | addRight (left : Code)
  | subLeft (right : Code)
  | subRight (left : Code)

def Expr.Frame.fill {ν : Type} : Frame ν → Expr ν → Expr ν
  | .term before after, x => .sum (before ++ x :: after)
  | .factor before after, x => .product (before ++ x :: after)
  | .base e, x => .power x e
  | .exponent b, x => .power b x
  | .argument head before after, x => .call head (before ++ x :: after)
  | .inner, x => .negation x
  | .item before after, x => .list (before ++ x :: after)

def Code.Frame.fill : Frame → Code → Code
  | .argument f before after, c => .call f (before ++ c :: after)
  | .item before after, c => .list (before ++ c :: after)
  | .paren, c => .paren c
  | .base e, c => .power c e
  | .exponent b, c => .power b c
  | .negative, c => .negative c
  | .mulLeft r, c => .mul c r
  | .mulRight l, c => .mul l c
  | .divLeft r, c => .div c r
  | .divRight l, c => .div l c
  | .addLeft r, c => .add c r
  | .addRight l, c => .add l c
  | .subLeft r, c => .sub c r
  | .subRight l, c => .sub l c

def Expr.fill {ν : Type} (place : List (Frame ν)) (x : Expr ν) : Expr ν := place.foldr Frame.fill x

def Code.fill (place : List Frame) (c : Code) : Code := place.foldr Frame.fill c

/-- Code that depends on a name has a place where the name is rendered, and does not depend on it
otherwise. -/
def Code.Shows (shown : String → Code) (c : String → Code) : Prop :=
  ∃ place, ∀ s, c s = Code.fill place (shown s)

structure Rendering.Shows (shown : String → Code) (r : String → Rendering) : Prop where
  code : Code.Shows shown fun s => (r s).code
  binding : ∃ b, ∀ s, (r s).binding = b
  magnitude : (∀ s, (r s).magnitude = none) ∨ ∃ m b, Code.Shows shown m ∧
    ∀ s, (r s).magnitude = some (m s, b)

inductive Fraction.Shows (shown : String → Code) : (String → Fraction) → Prop where
  | top (negated : Bool) (before after bottom : List Rendering) {r : String → Rendering}
      (hr : Rendering.Shows shown r) :
      Shows shown fun s => ⟨negated, before ++ r s :: after, bottom⟩
  | bottom (negated : Bool) (top before after : List Rendering) {r : String → Rendering}
      (hr : Rendering.Shows shown r) : Shows shown fun s => ⟨negated, top, before ++ r s :: after⟩

structure Piece.Shows (shown : String → Code) (p : String → Piece) : Prop where
  rendering : Rendering.Shows shown fun s => (p s).rendering
  fraction : Fraction.Shows shown fun s => (p s).fraction
  element : Code.Shows shown fun s => (p s).element

variable {shown : String → Code}

namespace Code

variable {c : String → Code}

theorem Shows.here : Shows shown shown := ⟨[], fun _ => rfl⟩

theorem Shows.frame (h : Shows shown c) (f : Frame) : Shows shown fun s => f.fill (c s) := by
  obtain ⟨place, hplace⟩ := h
  exact ⟨f :: place, fun s => congrArg f.fill (hplace s)⟩

/-- A sign goes to the first factor, in which the place may be. -/
theorem Shows.negated (hshown : ∀ s, (shown s).isProduct = false) (h : Shows shown c) :
    Shows shown fun s => (c s).negated := by
  obtain ⟨place, hplace⟩ := h
  simp only [hplace]
  clear hplace
  induction place with
  | nil => exact ⟨[.negative], fun s => negated_of_isProduct (hshown s)⟩
  | cons f place ih =>
      have hinner : Shows shown (Code.fill place ∘ shown) := ⟨place, fun _ => rfl⟩
      have hwhole (hf : ∀ c, (f.fill c).isProduct = false) :
          Shows shown fun s => (Code.fill (f :: place) (shown s)).negated :=
        ⟨.negative :: f :: place, fun s => negated_of_isProduct (hf _)⟩
      cases f with
      | mulLeft r => exact ih.frame (.mulLeft r)
      | divLeft r => exact ih.frame (.divLeft r)
      | mulRight l => exact hinner.frame (.mulRight l.negated)
      | divRight l => exact hinner.frame (.divRight l.negated)
      | _ => exact hwhole fun _ => rfl

theorem Shows.wrap (h : Shows shown c) (strength need : Binding) :
    Shows shown fun s => Rendering.wrap (c s) strength need := by
  unfold Rendering.wrap
  split
  · exact h
  · exact h.frame .paren

end Code

namespace Rendering

variable {r : String → Rendering}

theorem Shows.of_code {c : String → Code} (h : Code.Shows shown c) (b : Binding) :
    Shows shown fun s => ⟨c s, b, none⟩ :=
  ⟨h, ⟨b, fun _ => rfl⟩, .inl fun _ => rfl⟩

theorem Shows.ofCode {c : String → Code} (h : Code.Shows shown c) {b : Binding}
    (hb : ∀ s, (c s).binding = b) : Shows shown fun s => Rendering.ofCode (c s) :=
  ⟨h, ⟨b, hb⟩, .inl fun _ => rfl⟩

theorem Shows.within (h : Shows shown r) (need : Binding) :
    Code.Shows shown fun s => (r s).within need := by
  obtain ⟨b, hb⟩ := h.binding
  simp only [Rendering.within, hb]
  exact h.code.wrap b need

theorem Shows.negative (hshown : ∀ s, (shown s).isProduct = false) (h : Shows shown r) :
    Shows shown fun s => (r s).negative := by
  obtain ⟨b, hb⟩ := h.binding
  have hparen := h.code.frame .paren
  simp only [Rendering.negative, hb]
  split
  · exact ⟨h.code.negated hshown, ⟨_, fun _ => rfl⟩, .inr ⟨_, b, h.code, fun _ => rfl⟩⟩
  · exact ⟨hparen.frame .negative, ⟨_, fun _ => rfl⟩, .inr ⟨_, .atom, hparen, fun _ => rfl⟩⟩

theorem addTo_left {left : String → Code} (h : Code.Shows shown left) (r : Rendering) :
    Code.Shows shown fun s => addTo (left s) r := by
  unfold addTo
  split
  · next m b _ => exact h.frame (.subLeft _)
  · exact h.frame (.addLeft _)

theorem Shows.addTo (h : Shows shown r) (left : Code) :
    Code.Shows shown fun s => Rendering.addTo left (r s) := by
  rcases h.magnitude with hnone | ⟨m, b, hm, hsome⟩
  · simp only [Rendering.addTo, hnone]
    exact (h.within .product).frame (.addRight left)
  · simp only [Rendering.addTo, hsome]
    exact (hm.wrap b .product).frame (.subRight left)

theorem foldl_addTo {left : String → Code} (h : Code.Shows shown left) (rs : List Rendering) :
    Code.Shows shown fun s => rs.foldl Rendering.addTo (left s) := by
  induction rs generalizing left with
  | nil => exact h
  | cons r rs ih => exact ih (addTo_left h r)

theorem Shows.sum (h : Shows shown r) (before after : List Rendering) :
    Shows shown fun s => Rendering.sum (before ++ r s :: after) := by
  cases before with
  | nil => exact .of_code (foldl_addTo h.code after) .sum
  | cons first before =>
      simp only [List.cons_append, Rendering.sum, List.foldl_append, List.foldl_cons]
      exact .of_code (foldl_addTo (h.addTo _) after) .sum

theorem foldl_mul {left : String → Code} (h : Code.Shows shown left) (cs : List Code) :
    Code.Shows shown fun s => Code.chain (left s) cs := by
  induction cs generalizing left with
  | nil => exact h
  | cons c cs ih => exact ih (h.frame (.mulLeft c))

theorem Shows.chain (h : Shows shown r) (before after : List Rendering) :
    Code.Shows shown fun s => Rendering.chain (before ++ r s :: after) := by
  cases before with
  | nil => exact foldl_mul (h.within .power) _
  | cons first before =>
      simp only [List.cons_append, Rendering.chain, List.map_append, List.map_cons, Code.chain,
        List.foldl_append, List.foldl_cons]
      exact foldl_mul ((h.within .power).frame (.mulRight _)) _

end Rendering

namespace Fraction

variable {f : String → Fraction} {r : String → Rendering}

theorem shows_ofRendering (h : Rendering.Shows shown r) : Shows shown fun s => ofRendering (r s) :=
  .top false [] [] [] h

theorem Shows.flip (h : Shows shown f) : Shows shown fun s => (f s).flip := by
  cases h with
  | top negated before after bottom hr => exact .top (!negated) before after bottom hr
  | bottom negated top before after hr => exact .bottom (!negated) top before after hr

theorem Shows.append_right (h : Shows shown f) (g : Fraction) :
    Shows shown fun s => (f s).append g := by
  cases h with
  | top negated before after bottom hr =>
      simpa [Fraction.append]
        using Shows.top (negated ^^ g.negated) before (after ++ g.top) (bottom ++ g.bottom) hr
  | bottom negated top before after hr =>
      simpa [Fraction.append]
        using Shows.bottom (negated ^^ g.negated) (top ++ g.top) before (after ++ g.bottom) hr

theorem Shows.append_left (h : Shows shown f) (g : Fraction) :
    Shows shown fun s => g.append (f s) := by
  cases h with
  | top negated before after bottom hr =>
      simpa [Fraction.append]
        using Shows.top (g.negated ^^ negated) (g.top ++ before) after (g.bottom ++ bottom) hr
  | bottom negated top before after hr =>
      simpa [Fraction.append]
        using Shows.bottom (g.negated ^^ negated) (g.top ++ top) (g.bottom ++ before) after hr

theorem below_shows (h : Rendering.Shows shown r) (before after : List Rendering) :
    Code.Shows shown fun s => below (before ++ r s :: after) := by
  match before, after with
  | [], [] => exact h.within .power
  | [], _ :: _ => exact (h.chain [] _).frame .paren
  | [first], after => exact (h.chain [first] after).frame .paren
  | first :: second :: before, after => exact (h.chain (first :: second :: before) after).frame .paren

theorem Shows.body (h : Shows shown f) : Rendering.Shows shown fun s => (f s).body := by
  cases h with
  | top negated before after bottom hr =>
      have hchain := hr.chain before after
      cases bottom with
      | cons b bs => exact .of_code (hchain.frame (.divLeft (below (b :: bs)))) .product
      | nil =>
          match before, after with
          | [], [] => exact hr
          | [], _ :: _ => exact .of_code hchain .product
          | [first], after => exact .of_code hchain .product
          | first :: second :: before, after => exact .of_code hchain .product
  | bottom negated top before after hr =>
      have hbelow := (below_shows hr before after).frame (.divRight (Rendering.chain top))
      cases before with
      | nil => exact .of_code hbelow .product
      | cons first before => exact .of_code hbelow .product

theorem Shows.rendering (hshown : ∀ s, (shown s).isProduct = false) (h : Shows shown f) :
    Rendering.Shows shown fun s => (f s).rendering := by
  obtain ⟨n, hn⟩ : ∃ n, ∀ s, (f s).negated = n := by
    cases h with
    | top negated => exact ⟨negated, fun _ => rfl⟩
    | bottom negated => exact ⟨negated, fun _ => rfl⟩
  simp only [Fraction.rendering, hn]
  split
  · exact h.body.negative hshown
  · exact h.body

end Fraction

namespace Piece

theorem shows_ofRendering {r : String → Rendering} (h : Rendering.Shows shown r) :
    Shows shown fun s => ofRendering (r s) :=
  ⟨h, Fraction.shows_ofRendering h, h.code⟩

theorem shows_ofFraction (hshown : ∀ s, (shown s).isProduct = false) {f : String → Fraction}
    (h : Fraction.Shows shown f) : Shows shown fun s => ofFraction (f s) :=
  ⟨h.rendering hshown, h, (h.rendering hshown).code⟩

end Piece

namespace Target

variable {ν : Type} [Number ν] (t : Target)

section Nodes

variable {c : String → Code} {r : String → Rendering}

theorem power_shows_base (h : Rendering.Shows shown r) (exponent : Rendering) (half : Bool) :
    Rendering.Shows shown fun s => t.power (r s) exponent half := by
  unfold power
  split
  · exact .of_code (h.code.frame (.argument t.rootCall [] [])) .atom
  · exact .of_code ((h.within .atom).frame (.base _)) .power

theorem power_shows_exponent (h : Rendering.Shows shown r) (base : Rendering) :
    Rendering.Shows shown fun s => t.power base (r s) false :=
  .of_code ((h.within .unary).frame (.exponent (base.within .atom))) .power

theorem reciprocal_shows (hshown : ∀ s, (shown s).isProduct = false) (h : Rendering.Shows shown r)
    (n : Numeral ν) : Rendering.Shows shown fun s => t.reciprocal (r s) n := by
  have plain (m : Numeral ν) : Rendering.Shows shown fun s =>
      if m.isMinusOne then r s else t.numeralPower (r s) (.ratio (-m.numerator) m.denominator) := by
    split
    · exact h
    · exact power_shows_base t h _ _
  unfold reciprocal
  simp only
  split
  · exact (Fraction.Shows.bottom false [] [] [] (plain _)).rendering hshown
  · exact plain n

/-- An argument has its place in the call, also where two are exchanged, made a quotient or nested. -/
theorem callCode_shows (h : Code.Shows shown c) (head : String) (before after : List Code) :
    Rendering.Shows shown fun s => .ofCode (t.callCode head (before ++ c s :: after)) := by
  have call (f : String) (before after : List Code) :
      Rendering.Shows shown fun s => .ofCode (.call f (before ++ c s :: after)) :=
    .ofCode (h.frame (.argument f before after)) fun _ => rfl
  have single (f : String) : Code.Shows shown fun s => .call f [c s] := h.frame (.argument f [] [])
  induction before with
  | nil =>
      match after with
      | [] =>
          simp only [List.nil_append, callCode_single]
          exact call _ [] []
      | [x] =>
          simp only [List.nil_append, callCode_pair]
          split
          · exact .ofCode ((single _).frame (.divRight _)) fun _ => rfl
          · split
            · exact call _ [x] []
            · exact call _ [] [x]
      | second :: third :: rest =>
          simp only [List.nil_append, callCode_more]
          split
          · exact call _ [] [t.callCode head (second :: third :: rest)]
          · exact call _ [] (second :: third :: rest)
  | cons first before ih =>
      have nested (f : String) : Rendering.Shows shown fun s =>
          .ofCode (.call f [first, t.callCode head (before ++ c s :: after)]) :=
        .ofCode (ih.code.frame (.argument f [first] [])) fun _ => rfl
      match before, after with
      | [], [] =>
          simp only [List.cons_append, List.nil_append, callCode_pair]
          split
          · exact .ofCode ((single _).frame (.divLeft _)) fun _ => rfl
          · split
            · exact call _ [] [first]
            · exact call _ [first] []
      | [], third :: rest =>
          simp only [List.cons_append, List.nil_append, callCode_more]
          split
          · exact nested _
          · exact call _ [first] (third :: rest)
      | [second], after =>
          simp only [List.cons_append, List.nil_append, callCode_more]
          split
          · exact nested _
          · exact call _ [first, second] after
      | second :: third :: before, after =>
          simp only [List.cons_append, callCode_more]
          split
          · exact nested _
          · exact call _ (first :: second :: third :: before) after

theorem listPiece_shows (h : Code.Shows shown c) (before after : List Code) :
    Piece.Shows shown fun s => t.listPiece (before ++ c s :: after) := by
  have hlist := h.frame (.item before after)
  have hr : Rendering.Shows shown fun s => (t.listPiece (before ++ c s :: after)).rendering := by
    simp only [listPiece]
    split
    · next f _ => exact .of_code (hlist.frame (.argument f [] [])) .atom
    · exact .of_code hlist .atom
  exact ⟨hr, Fraction.shows_ofRendering hr, hlist⟩

end Nodes

theorem renderings_append (xs ys : List (Expr ν)) :
    t.renderings (xs ++ ys) = t.renderings xs ++ t.renderings ys := by
  simp only [renderings_eq_map, List.map_append]

theorem elements_append (xs ys : List (Expr ν)) :
    t.elements (xs ++ ys) = t.elements xs ++ t.elements ys := by
  simp only [elements_eq_map, List.map_append]

theorem fractions_shows {x : String → Expr ν} (h : Piece.Shows shown fun s => t.piece (x s))
    (before after : List (Expr ν)) :
    Fraction.Shows shown fun s => t.fractions (before ++ x s :: after) := by
  induction before with
  | nil =>
      simp only [List.nil_append, fractions]
      exact h.fraction.append_right _
  | cons y before ih =>
      simp only [List.cons_append, fractions]
      exact ih.append_left _

theorem isProduct_symbolCode (s : String) : (t.symbolCode s).isProduct = false := by
  unfold symbolCode
  split
  · unfold Code.ofText
    split <;> rfl
  · rfl

/-- What is rendered as an atom is rendered, at a place of a tree, at a place of each of the three
renderings. -/
theorem fill_shows {leaf : String → Expr ν}
    (hleaf : ∀ s, t.piece (leaf s) = .ofRendering (.atom (shown s)))
    (hshown : ∀ s, (shown s).isProduct = false) (hnumber : ∀ s n, leaf s ≠ .number n)
    (hproduct : ∀ s fs, leaf s ≠ .product fs) (place : List (Expr.Frame ν)) :
    Piece.Shows shown fun s => t.piece (Expr.fill place (leaf s)) := by
  induction place with
  | nil =>
      simp only [Expr.fill, List.foldr_nil, hleaf]
      exact Piece.shows_ofRendering (.of_code .here .atom)
  | cons f place ih =>
      cases f with
      | term before after =>
          change Piece.Shows _ fun s => t.piece (.sum (before ++ Expr.fill place (leaf s) :: after))
          simp only [piece, renderings_append, renderings]
          exact Piece.shows_ofRendering (ih.rendering.sum _ _)
      | factor before after =>
          change Piece.Shows _ fun s =>
            t.piece (.product (before ++ Expr.fill place (leaf s) :: after))
          simp only [piece]
          exact Piece.shows_ofFraction hshown (fractions_shows t ih before after)
      | base e =>
          change Piece.Shows _ fun s => t.piece (.power (Expr.fill place (leaf s)) e)
          by_cases hnumber : ∃ n, e = .number n
          · obtain ⟨n, rfl⟩ := hnumber
            simp only [piece]
            split
            · exact Piece.shows_ofFraction hshown
                (.bottom false [] [] [] (reciprocal_shows t hshown ih.rendering n))
            · exact Piece.shows_ofRendering (power_shows_base t ih.rendering _ _)
          · simp only [piece_power t _ fun n hn => hnumber ⟨n, hn⟩]
            exact Piece.shows_ofRendering (power_shows_base t ih.rendering _ _)
      | exponent b =>
          have hnumber (s : String) (n : Numeral ν) : Expr.fill place (leaf s) ≠ .number n := by
            cases place with
            | nil => exact hnumber s n
            | cons g place => cases g <;> rintro ⟨⟩
          change Piece.Shows _ fun s => t.piece (.power b (Expr.fill place (leaf s)))
          simp only [fun s => piece_power t b (hnumber s)]
          exact Piece.shows_ofRendering (power_shows_exponent t ih.rendering _)
      | argument head before after =>
          change Piece.Shows _ fun s =>
            t.piece (.call head (before ++ Expr.fill place (leaf s) :: after))
          simp only [piece, renderings_append, renderings, List.map_append, List.map_cons]
          exact Piece.shows_ofRendering (callCode_shows t ih.rendering.code head _ _)
      | inner =>
          change Piece.Shows _ fun s => t.piece (.negation (Expr.fill place (leaf s)))
          -- the sign of a product is one of its fraction, and the place may be in a factor
          have other (hproduct : ∀ s fs, Expr.fill place (leaf s) ≠ .product fs) :
              Piece.Shows shown fun s => t.piece (.negation (Expr.fill place (leaf s))) := by
            have hr := (Rendering.Shows.of_code (ih.rendering.within .power) .power).negative hshown
            simp only [fun s => piece_negation t (hproduct s)]
            exact ⟨hr, ih.fraction.flip, hr.code⟩
          cases place with
          | nil => exact other hproduct
          | cons g place =>
              cases g with
              | factor before after =>
                  change Piece.Shows _ fun s =>
                    t.piece (.negation (.product (before ++ Expr.fill place (leaf s) :: after)))
                  simp only [piece_minusProduct]
                  exact Piece.shows_ofFraction hshown ih.fraction.flip
              | _ => exact other (by rintro s fs ⟨⟩)
      | item before after =>
          change Piece.Shows _ fun s => t.piece (.list (before ++ Expr.fill place (leaf s) :: after))
          simp only [piece, elements_append, elements]
          exact listPiece_shows t ih.element _ _

/-- A symbol at a place of a tree is rendered at a place of each of the three renderings. -/
theorem piece_shows (place : List (Expr.Frame ν)) :
    Piece.Shows t.symbolCode fun s => t.piece (Expr.fill place (.symbol s)) := by
  refine fill_shows t (fun s => ?_) (isProduct_symbolCode t) ?_ ?_ place
  · rw [piece]
  · rintro s n ⟨⟩
  · rintro s fs ⟨⟩

end Target

end Formulary
