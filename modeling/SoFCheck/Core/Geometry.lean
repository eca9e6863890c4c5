import SoFCheck.Core.Grid

namespace SoFCheck.Core.Geometry

open SoFCheck.Util.Bits SoFCheck.Core.Types SoFCheck.Core.Grid

def enpassantSrcRow (c : Color) : Subcoord := if c = .white then 3 else 4
def enpassantDstRow (c : Color) : Subcoord := if c = .white then 2 else 5
def promoteSrcRow (c : Color) : Subcoord := if c = .white then 1 else 6
def promoteDstRow (c : Color) : Subcoord := if c = .white then 0 else 7
def doubleMoveSrcRow (c : Color) : Subcoord := if c = .white then 6 else 1
def doubleMoveDstRow (c : Color) : Subcoord := if c = .white then 4 else 3
def castlingRow (c : Color) : Subcoord := if c = .white then 7 else 0
def castlingOffset (c : Color) : Coord := castlingRow c <<< 3
def pawnForwardDelta (c : Color) : Coord := if c = .white then -8 else 8
def pawnLeftDelta (c : Color) : Coord := if c = .white then -9 else 7
def pawnRightDelta (c : Color) : Coord := if c = .white then -7 else 9

/-- The captured pawn of an en passant move that ends on `dst`. -/
def enpassantPawnPos (color : Color) (dst : Coord) : Coord :=
  if color = .white then dst + 8 else dst - 8

def bbFull : Bitboard := 0xffffffffffffffff

def bbDiag1 : Fin 15 → Bitboard := ![
  0x0000000000000001, 0x0000000000000102, 0x0000000000010204, 0x0000000001020408,
  0x0000000102040810, 0x0000010204081020, 0x0001020408102040, 0x0102040810204080,
  0x0204081020408000, 0x0408102040800000, 0x0810204080000000, 0x1020408000000000,
  0x2040800000000000, 0x4080000000000000, 0x8000000000000000]

def bbDiag2 : Fin 15 → Bitboard := ![
  0x0100000000000000, 0x0201000000000000, 0x0402010000000000, 0x0804020100000000,
  0x1008040201000000, 0x2010080402010000, 0x4020100804020100, 0x8040201008040201,
  0x0080402010080402, 0x0000804020100804, 0x0000008040201008, 0x0000000080402010,
  0x0000000000804020, 0x0000000000008040, 0x0000000000000080]

def bbRow : Fin 8 → Bitboard := ![
  0x00000000000000ff, 0x000000000000ff00, 0x0000000000ff0000, 0x00000000ff000000,
  0x000000ff00000000, 0x0000ff0000000000, 0x00ff000000000000, 0xff00000000000000]

def bbCol : Fin 8 → Bitboard := ![
  0x0101010101010101, 0x0202020202020202, 0x0404040404040404, 0x0808080808080808,
  0x1010101010101010, 0x2020202020202020, 0x4040404040404040, 0x8080808080808080]

def bbRowFrame : Bitboard := 0x8181818181818181
def bbColFrame : Bitboard := 0xff000000000000ff
def bbDiagFrame : Bitboard := 0xff818181818181ff

def bbCastlingKingsidePass : Bitboard := 0x60
def bbCastlingQueensidePass : Bitboard := 0x0e

def bbCastlingBlackKingsideSrcs : Bitboard := 0x90
def bbCastlingBlackQueensideSrcs : Bitboard := 0x11
def bbCastlingBlackAllSrcs : Bitboard := 0x91
def bbCastlingWhiteKingsideSrcs : Bitboard := bbCastlingBlackKingsideSrcs <<< 56
def bbCastlingWhiteQueensideSrcs : Bitboard := bbCastlingBlackQueensideSrcs <<< 56
def bbCastlingWhiteAllSrcs : Bitboard := bbCastlingBlackAllSrcs <<< 56
def bbCastlingAllSrcs : Bitboard := bbCastlingWhiteAllSrcs ||| bbCastlingBlackAllSrcs

/-- A row or column number as an index into the tables above. -/
def rowIdx (x : Subcoord) : Fin 8 := Fin.ofNat 8 x.toBitVec.toNat

def advancePawnForward (c : Color) (bbPawns : Bitboard) : Bitboard :=
  if c = .white then bbPawns >>> 8 else bbPawns <<< 8

def advancePawnLeft (c : Color) (bbPawns : Bitboard) : Bitboard :=
  let bbMovingPawns := bbPawns &&& ~~~(bbCol 0)
  if c = .white then bbMovingPawns >>> 9 else bbMovingPawns <<< 7

def advancePawnRight (c : Color) (bbPawns : Bitboard) : Bitboard :=
  let bbMovingPawns := bbPawns &&& ~~~(bbCol 7)
  if c = .white then bbMovingPawns >>> 7 else bbMovingPawns <<< 9

/-- The row a pawn steps down by: up the board for White. -/
def forward : Color → Int
  | .white => -1
  | .black => 1

theorem hasBit_bbRow (x : Fin 8) (s : Square) : hasBit (bbRow x) s = decide (row s = x) := by
  revert x s
  decide +kernel

theorem hasBit_bbCol (y : Fin 8) (s : Square) : hasBit (bbCol y) s = decide (col s = y) := by
  revert y s
  decide +kernel

theorem hasBit_bbFull (s : Square) : hasBit bbFull s = true := by
  revert s
  decide

section Advance

theorem hasBit_advancePawnForward {c : Color} {x : Bitboard} {t : Square} :
    hasBit (advancePawnForward c x) t = true ↔
      ∃ s, hasBit x s = true ∧ offset (forward c, 0) s = some t := by
  cases c
  · rw [advancePawnForward, if_pos rfl, hasBit_ushiftRight]
    refine exists_congr fun s => and_congr_right fun _ => ?_
    rw [offset_eq_some_iff, val_eq s, val_eq t, forward]
    have := col_lt s
    have := col_lt t
    omega
  · rw [advancePawnForward, if_neg nofun, hasBit_shiftLeft]
    refine exists_congr fun s => and_congr_right fun _ => ?_
    rw [offset_eq_some_iff, val_eq s, val_eq t, forward]
    have := col_lt s
    have := col_lt t
    omega

theorem hasBit_advancePawnLeft {c : Color} {x : Bitboard} {t : Square} :
    hasBit (advancePawnLeft c x) t = true ↔
      ∃ s, hasBit x s = true ∧ offset (forward c, -1) s = some t := by
  have hmask : ∀ s, hasBit (x &&& ~~~(bbCol 0)) s = true ↔ hasBit x s = true ∧ col s ≠ 0 := by
    intro s
    simp [hasBit_bbCol]
  cases c
  · rw [advancePawnLeft, if_pos rfl, hasBit_ushiftRight]
    refine exists_congr fun s => ?_
    rw [hmask, and_assoc, offset_eq_some_iff, val_eq s, val_eq t, forward]
    refine and_congr_right fun _ => ?_
    have := col_lt s
    have := col_lt t
    omega
  · rw [advancePawnLeft, if_neg nofun, hasBit_shiftLeft]
    refine exists_congr fun s => ?_
    rw [hmask, and_assoc, offset_eq_some_iff, val_eq s, val_eq t, forward]
    refine and_congr_right fun _ => ?_
    have := col_lt s
    have := col_lt t
    omega

theorem hasBit_advancePawnRight {c : Color} {x : Bitboard} {t : Square} :
    hasBit (advancePawnRight c x) t = true ↔
      ∃ s, hasBit x s = true ∧ offset (forward c, 1) s = some t := by
  have hmask : ∀ s, hasBit (x &&& ~~~(bbCol 7)) s = true ↔ hasBit x s = true ∧ col s ≠ 7 := by
    intro s
    simp [hasBit_bbCol]
  cases c
  · rw [advancePawnRight, if_pos rfl, hasBit_ushiftRight]
    refine exists_congr fun s => ?_
    rw [hmask, and_assoc, offset_eq_some_iff, val_eq s, val_eq t, forward]
    refine and_congr_right fun _ => ?_
    have := col_lt s
    have := col_lt t
    omega
  · rw [advancePawnRight, if_neg nofun, hasBit_shiftLeft]
    refine exists_congr fun s => ?_
    rw [hmask, and_assoc, offset_eq_some_iff, val_eq s, val_eq t, forward]
    refine and_congr_right fun _ => ?_
    have := col_lt s
    have := col_lt t
    omega

end Advance

end SoFCheck.Core.Geometry
