import Mathlib.Data.List.Basic

/-! Backtracking regular expressions over any alphabet: the ends of a match come
in the order in which a backtracking matcher tries them. -/

namespace Messageries.Text

inductive Regex (α : Type) : Type
  | empty : Regex α
  | one : (α → Bool) → Regex α
  | seq : Regex α → Regex α → Regex α
  | alt : Regex α → Regex α → Regex α
  | rep : Regex α → Nat → Option Nat → Regex α
  | look : (Option α → Option α → Bool) → Regex α

namespace Regex

variable {α : Type}

/-- A place in the text: the letter before it and the letters after it. -/
abbrev Place (α : Type) := Option α × List α

def times (step : Place α → List (Place α)) : Nat → Place α → List (Place α)
  | 0, s => [s]
  | n + 1, s => (step s).flatMap (times step n)

/-- At most `n` further rounds, as many as possible first; a round that matches
nothing is not taken. -/
def upTo (step : Place α → List (Place α)) : Nat → Place α → List (Place α)
  | 0, s => [s]
  | n + 1, s =>
    ((step s).filter fun s' => s'.2.length < s.2.length).flatMap (upTo step n) ++ [s]

def ends : Regex α → Place α → List (Place α)
  | .empty, s => [s]
  | .one p, s =>
    match s.2 with
    | [] => []
    | a :: rest => if p a then [(some a, rest)] else []
  | .seq r q, s => (r.ends s).flatMap q.ends
  | .alt r q, s => r.ends s ++ q.ends s
  | .rep r m n, s =>
    (times r.ends m s).flatMap fun s' =>
      upTo r.ends (match n with
        | some n => n - m
        | none => s'.2.length) s'
  | .look f, s => if f s.1 s.2.head? then [s] else []

def opt (r : Regex α) : Regex α := .rep r 0 (some 1)

def plus (r : Regex α) : Regex α := .rep r 1 none

def star (r : Regex α) : Regex α := .rep r 0 none

/-- A letter outside every match, or a match. -/
inductive Piece (α : Type) : Type
  | keep : α → Piece α
  | hit : List α → Piece α

def Piece.text : Piece α → List α
  | .keep a => [a]
  | .hit m => m

/-- The first `skip` letters are inside a match already taken. -/
def piecesFrom (r : Regex α) : Nat → Option α → List α → List (Piece α)
  | _, _, [] => []
  | skip + 1, _, a :: s => piecesFrom r skip (some a) s
  | 0, prev, a :: s =>
    match ((r.ends (prev, a :: s)).filter fun e => e.2.length ≤ s.length).head? with
    | some e =>
      .hit ((a :: s).take (s.length + 1 - e.2.length)) ::
        piecesFrom r (s.length - e.2.length) (some a) s
    | none => .keep a :: piecesFrom r 0 (some a) s

/-- The text cut at its leftmost matches, from left to right. -/
def pieces (r : Regex α) (s : List α) : List (Piece α) := r.piecesFrom 0 none s

def Piece.matched : Piece α → Option (List α)
  | .keep _ => none
  | .hit m => some m

/-- The first match. -/
def exec (r : Regex α) (s : List α) : Option (List α) := (r.pieces s).findSome? Piece.matched

/-- The letters `w` one after the other, then `r`. -/
def literal [BEq α] (w : List α) (r : Regex α) : Regex α :=
  w.foldr (fun a r => .seq (.one (· == a)) r) r

def replace (f : List α → List α) (ps : List (Piece α)) : List α :=
  ps.flatMap fun
    | .keep a => [a]
    | .hit m => f m

theorem text_piecesFrom (r : Regex α) (skip : Nat) (prev : Option α) (s : List α) :
    (r.piecesFrom skip prev s).flatMap Piece.text = s.drop skip := by
  induction s generalizing skip prev with
  | nil => cases skip <;> rfl
  | cons a s ih =>
    cases skip with
    | succ skip => exact ih skip (some a)
    | zero =>
      simp only [piecesFrom]
      split
      · rename_i e he
        have hle : e.2.length ≤ s.length := by
          simpa using (List.mem_filter.1 (List.mem_of_mem_head? he)).2
        have e₁ : s.length + 1 - e.2.length = s.length - e.2.length + 1 := by omega
        rw [List.flatMap_cons, ih, Piece.text, e₁]
        exact congrArg (a :: ·) (List.take_append_drop ..)
      · rw [List.flatMap_cons, ih]
        rfl

/-- The pieces are a cut of the text. -/
theorem text_pieces (r : Regex α) (s : List α) : (r.pieces s).flatMap Piece.text = s :=
  text_piecesFrom r 0 none s

end Regex

end Messageries.Text
