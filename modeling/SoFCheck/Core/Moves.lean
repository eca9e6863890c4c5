import SoFCheck.Core.Geometry

namespace SoFCheck.Core.Moves

open SoFCheck.Core.Types SoFCheck.Core.Grid SoFCheck.Core.Geometry

inductive MoveKind where
  | null
  | simple
  | pawnDoubleMove
  | enpassant
  | castlingKingside
  | castlingQueenside
  | promoteKnight
  | promoteBishop
  | promoteRook
  | promoteQueen
  | invalid
  deriving DecidableEq, Repr

/-- The kinds as the source numbers them. -/
def MoveKind.toNat : MoveKind → Nat
  | .null => 0
  | .simple => 1
  | .pawnDoubleMove => 2
  | .enpassant => 3
  | .castlingKingside => 4
  | .castlingQueenside => 5
  | .promoteKnight => 6
  | .promoteBishop => 7
  | .promoteRook => 8
  | .promoteQueen => 9
  | .invalid => 10

def isMoveKindPromote : MoveKind → Bool
  | .promoteKnight | .promoteBishop | .promoteRook | .promoteQueen => true
  | _ => false

/-- Only meaningful when `isMoveKindPromote` holds. -/
def moveKindPromotePiece : MoveKind → Piece
  | .promoteBishop => .bishop
  | .promoteRook => .rook
  | .promoteQueen => .queen
  | _ => .knight

structure Move where
  kind : MoveKind
  src : Coord
  dst : Coord
  tag : BitVec 8
  deriving DecidableEq, Repr

def Move.null : Move := ⟨.null, 0, 0, 0⟩

def Move.invalid : Move := ⟨.invalid, 0, 0, 0⟩

def Move.isWellFormed (move : Move) (c : Color) : Bool :=
  let src := move.src
  let dst := move.dst
  if src < 0 || src ≥ 64 || dst < 0 || dst ≥ 64 then false
  else if move.kind != .null && src == dst then false
  else
    match move.kind with
    | .simple => true
    | .pawnDoubleMove =>
      !(coordX src != doubleMoveSrcRow c || coordX dst != doubleMoveDstRow c ||
        coordY src != coordY dst)
    | .promoteKnight | .promoteBishop | .promoteRook | .promoteQueen =>
      if coordX src != promoteSrcRow c || coordX dst != promoteDstRow c then false
      else
        let srcY := coordY src
        let dstY := coordY dst
        !(srcY + 1 != dstY && srcY != dstY && srcY - 1 != dstY)
    | .castlingKingside =>
      let x := castlingRow c
      !(src != makeCoord x 4 || dst != makeCoord x 6)
    | .castlingQueenside =>
      let x := castlingRow c
      !(src != makeCoord x 4 || dst != makeCoord x 2)
    | .null => !(src != 0 || dst != 0)
    | .enpassant =>
      if coordX src != enpassantSrcRow c || coordX dst != enpassantDstRow c then false
      else
        let srcY := coordY src
        let dstY := coordY dst
        !(srcY + 1 != dstY && srcY - 1 != dstY)
    | .invalid => false

/-- The move structure as a number. -/
def Move.asUint (move : Move) : BitVec 32 :=
  (BitVec.ofNat 8 move.kind.toNat).setWidth 32 ||| move.src.toBitVec.setWidth 32 <<< 8 |||
    move.dst.toBitVec.setWidth 32 <<< 16 ||| move.tag.setWidth 32 <<< 24

/-- A move between two cells of the board, as the generators write it. -/
def mkMove (kind : MoveKind) (src dst : Square) : Move := ⟨kind, toCoord src, toCoord dst, 0⟩

theorem exists_mkMove {m : Move} {c : Color} (h : m.isWellFormed c = true)
    (ht : m.tag = 0) : ∃ s t, m = mkMove m.kind s t := by
  obtain ⟨kind, src, dst, tag⟩ := m
  obtain rfl : tag = 0 := ht
  have hr : ¬((src < 0 || src ≥ 64 || dst < 0 || dst ≥ 64) = true) := by
    intro hr
    simp [Move.isWellFormed, hr] at h
  simp only [Bool.or_eq_true, decide_eq_true_eq, not_or, ge_iff_le, Int8.not_lt, Int8.not_le] at hr
  obtain ⟨⟨⟨h1, h2⟩, h3⟩, h4⟩ := hr
  exact ⟨toSquare src, toSquare dst, by simp [mkMove, toCoord_toSquare h1 h2, toCoord_toSquare h3 h4]⟩

theorem null_eq : Move.null = mkMove .null 0 0 := by decide

@[simp] theorem mkMove_inj {k k' : MoveKind} {s s' t t' : Square} :
    mkMove k s t = mkMove k' s' t' ↔ k = k' ∧ s = s' ∧ t = t' := by
  simp [mkMove]

end SoFCheck.Core.Moves
