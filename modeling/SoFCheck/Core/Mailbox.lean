import SoFCheck.Core.Moves

namespace SoFCheck.Core.Mailbox

open SoFCheck.Util.Scan
open SoFCheck.Core.Types SoFCheck.Core.Grid SoFCheck.Core.Geometry SoFCheck.Core.Moves

/-- What a chess player knows of a position: the pieces on an eight by eight
grid, the side to move, the castling rights and the pawn that has just moved by
two cells. -/
structure Position where
  pieceAt : Square → Option (Color × Piece)
  side : Color
  kingside : Color → Bool
  queenside : Color → Bool
  enpassant : Option Square

def rowDist (s t : Square) : Nat := ((row s : Int) - row t).natAbs

def colDist (s t : Square) : Nat := ((col s : Int) - col t).natAbs

/-- The lines along which a piece slides. -/
def lines : Piece → List Dir
  | .bishop => bishopDirs
  | .rook => rookDirs
  | .queen => dirs
  | _ => []

/-- A piece of colour `c` on `s` hits the cell `t`. -/
def Reaches (occ : Square → Bool) (c : Color) (pc : Piece) (s t : Square) : Prop :=
  match pc with
  | .pawn => (row t : Int) = row s + forward c ∧ colDist s t = 1
  | .king => max (rowDist s t) (colDist s t) = 1
  | .knight => rowDist s t = 1 ∧ colDist s t = 2 ∨ rowDist s t = 2 ∧ colDist s t = 1
  | .bishop | .rook | .queen => ∃ d ∈ lines pc, t ∈ scan occ (ray d s)

instance (occ : Square → Bool) (c : Color) (pc : Piece) (s t : Square) :
    Decidable (Reaches occ c pc s t) :=
  match pc with
  | .pawn => inferInstanceAs (Decidable ((row t : Int) = row s + forward c ∧ colDist s t = 1))
  | .king => inferInstanceAs (Decidable (max (rowDist s t) (colDist s t) = 1))
  | .knight => inferInstanceAs (Decidable
      (rowDist s t = 1 ∧ colDist s t = 2 ∨ rowDist s t = 2 ∧ colDist s t = 1))
  | .bishop => inferInstanceAs (Decidable (∃ d ∈ lines .bishop, t ∈ scan occ (ray d s)))
  | .rook => inferInstanceAs (Decidable (∃ d ∈ lines .rook, t ∈ scan occ (ray d s)))
  | .queen => inferInstanceAs (Decidable (∃ d ∈ lines .queen, t ∈ scan occ (ray d s)))

def lastRow : Color → Nat
  | .white => 0
  | .black => 7

def pawnRow : Color → Nat
  | .white => 6
  | .black => 1

/-- The cell of the home row of `c` in column `y`. -/
def homeCell (c : Color) (y : Fin 8) : Square :=
  match c with
  | .white => ⟨56 + y, by omega⟩
  | .black => ⟨y, by omega⟩

namespace Position

def occupied (p : Position) (s : Square) : Bool := (p.pieceAt s).isSome

def Own (p : Position) (s : Square) : Prop := ∃ pc, p.pieceAt s = some (p.side, pc)

def Enemy (p : Position) (s : Square) : Prop := ∃ pc, p.pieceAt s = some (invert p.side, pc)

/-- Some piece of colour `c` hits the cell `t`. -/
def Attacked (p : Position) (c : Color) (t : Square) : Prop :=
  ∃ s pc, p.pieceAt s = some (c, pc) ∧ Reaches p.occupied c pc s t

instance (p : Position) (c : Color) (t : Square) : Decidable (p.Attacked c t) :=
  inferInstanceAs (Decidable
    (∃ s pc, p.pieceAt s = some (c, pc) ∧ Reaches p.occupied c pc s t))

/-- The kinds of a pawn move that ends on `t`: a promotion on the last row and
nothing else there. -/
def PawnKind (p : Position) (k : MoveKind) (t : Square) : Prop :=
  if row t = lastRow p.side then isMoveKindPromote k = true else k = .simple

/-- The moves of the pieces, whatever becomes of the own king. -/
inductive Pseudo (p : Position) : MoveKind → Square → Square → Prop where
  | piece {pc : Piece} {s t : Square} (hs : p.pieceAt s = some (p.side, pc)) (hpc : pc ≠ .pawn)
      (hr : Reaches p.occupied p.side pc s t) (ht : ¬p.Own t) : Pseudo p .simple s t
  | push {k : MoveKind} {s t : Square} (hs : p.pieceAt s = some (p.side, .pawn))
      (ho : offset (forward p.side, 0) s = some t) (ht : p.pieceAt t = none)
      (hk : p.PawnKind k t) : Pseudo p k s t
  | double {s u t : Square} (hs : p.pieceAt s = some (p.side, .pawn)) (hr : row s = pawnRow p.side)
      (ho : offset (forward p.side, 0) s = some u) (ho' : offset (forward p.side, 0) u = some t)
      (hu : p.pieceAt u = none) (ht : p.pieceAt t = none) : Pseudo p .pawnDoubleMove s t
  | capture {k : MoveKind} {s t : Square} (hs : p.pieceAt s = some (p.side, .pawn))
      (hr : Reaches p.occupied p.side .pawn s t) (ht : p.Enemy t) (hk : p.PawnKind k t) :
      Pseudo p k s t
  | enpassant {e s t : Square} (he : p.enpassant = some e)
      (hpe : p.pieceAt e = some (invert p.side, .pawn)) (hs : p.pieceAt s = some (p.side, .pawn))
      (hr : row s = row e) (hc : colDist s e = 1) (ho : offset (forward p.side, 0) e = some t)
      (ht : p.pieceAt t = none) : Pseudo p .enpassant s t
  | castlingKingside (hf : p.kingside p.side = true)
      (hk : p.pieceAt (homeCell p.side 4) = some (p.side, .king))
      (hr : p.pieceAt (homeCell p.side 7) = some (p.side, .rook))
      (h5 : p.pieceAt (homeCell p.side 5) = none) (h6 : p.pieceAt (homeCell p.side 6) = none)
      (ha : ¬p.Attacked (invert p.side) (homeCell p.side 4))
      (ha' : ¬p.Attacked (invert p.side) (homeCell p.side 5)) :
      Pseudo p .castlingKingside (homeCell p.side 4) (homeCell p.side 6)
  | castlingQueenside (hf : p.queenside p.side = true)
      (hk : p.pieceAt (homeCell p.side 4) = some (p.side, .king))
      (hr : p.pieceAt (homeCell p.side 0) = some (p.side, .rook))
      (h1 : p.pieceAt (homeCell p.side 1) = none) (h2 : p.pieceAt (homeCell p.side 2) = none)
      (h3 : p.pieceAt (homeCell p.side 3) = none)
      (ha : ¬p.Attacked (invert p.side) (homeCell p.side 4))
      (ha' : ¬p.Attacked (invert p.side) (homeCell p.side 3)) :
      Pseudo p .castlingQueenside (homeCell p.side 4) (homeCell p.side 2)

/-- Lift what stands on `s` and put `x` on `t`. -/
def relocate (f : Square → Option (Color × Piece)) (s t : Square) (x : Option (Color × Piece)) :
    Square → Option (Color × Piece) :=
  Function.update (Function.update f s none) t x

def placement (p : Position) (k : MoveKind) (s t : Square) : Square → Option (Color × Piece) :=
  match k with
  | .null | .invalid => p.pieceAt
  | .simple | .pawnDoubleMove => relocate p.pieceAt s t (p.pieceAt s)
  | .enpassant =>
    match p.enpassant with
    | some e => Function.update (relocate p.pieceAt s t (p.pieceAt s)) e none
    | none => p.pieceAt
  | .castlingKingside =>
    relocate (relocate p.pieceAt s t (p.pieceAt s)) (homeCell p.side 7) (homeCell p.side 5)
      (some (p.side, .rook))
  | .castlingQueenside =>
    relocate (relocate p.pieceAt s t (p.pieceAt s)) (homeCell p.side 0) (homeCell p.side 3)
      (some (p.side, .rook))
  | .promoteKnight | .promoteBishop | .promoteRook | .promoteQueen =>
    relocate p.pieceAt s t (some (p.side, moveKindPromotePiece k))

/-- The position after a move. A castling right is lost for good once the king
or the rook has moved or the rook has been captured. -/
def play (p : Position) (k : MoveKind) (s t : Square) : Position where
  pieceAt := p.placement k s t
  side := invert p.side
  kingside c := p.kingside c && !(([homeCell c 4, homeCell c 7] : List Square).any (· ∈ [s, t]))
  queenside c := p.queenside c && !(([homeCell c 4, homeCell c 0] : List Square).any (· ∈ [s, t]))
  enpassant := if k = .pawnDoubleMove then some t else none

@[simp] theorem play_pieceAt (p : Position) (k : MoveKind) (s t : Square) :
    (p.play k s t).pieceAt = p.placement k s t := rfl

/-- The king of colour `c` stands on an attacked cell. -/
def InCheck (p : Position) (c : Color) : Prop :=
  ∃ s, p.pieceAt s = some (c, .king) ∧ p.Attacked (invert c) s

instance (p : Position) (c : Color) : Decidable (p.InCheck c) :=
  inferInstanceAs (Decidable (∃ s, p.pieceAt s = some (c, .king) ∧ p.Attacked (invert c) s))

/-- The legal moves of chess. -/
structure Legal (p : Position) (k : MoveKind) (s t : Square) : Prop where
  pseudo : p.Pseudo k s t
  /-- Castling does not end on an attacked cell. -/
  castling : k = .castlingKingside ∨ k = .castlingQueenside → ¬p.Attacked (invert p.side) t
  safe : ¬(p.play k s t).InCheck p.side

end Position

section Reach

variable {occ : Square → Bool}

theorem mem_scan_ray_comm {d : Dir} (hd : d ∈ dirs) {s t : Square} :
    t ∈ scan occ (ray d s) ↔ s ∈ scan occ (ray (-d) t) := by
  rw [mem_scan, mem_scan, mem_ray_neg hd]
  refine and_congr_right fun hs => forall_congr' fun u => ?_
  exact imp_congr_left (mem_inner_neg hd ((mem_ray_neg hd).mpr hs))

theorem lines_subset {pc : Piece} {d : Dir} (hd : d ∈ lines pc) : d ∈ dirs := by
  cases pc
  case bishop => exact List.mem_append_right _ hd
  case rook => exact List.mem_append_left _ hd
  case queen => exact hd
  all_goals cases hd

theorem neg_mem_lines {pc : Piece} {d : Dir} (hd : d ∈ lines pc) : -d ∈ lines pc := by
  cases pc
  case bishop => exact neg_mem_bishopDirs d hd
  case rook => exact neg_mem_rookDirs d hd
  case queen => exact neg_mem_dirs d hd
  all_goals cases hd

theorem rowDist_comm (s t : Square) : rowDist s t = rowDist t s := by
  simp only [rowDist]
  omega

theorem colDist_comm (s t : Square) : colDist s t = colDist t s := by
  simp only [colDist]
  omega

theorem slides_comm {pc : Piece} {s t : Square} (h : ∃ d ∈ lines pc, t ∈ scan occ (ray d s)) :
    ∃ d ∈ lines pc, s ∈ scan occ (ray d t) := by
  obtain ⟨d, hd, ht⟩ := h
  exact ⟨-d, neg_mem_lines hd, (mem_scan_ray_comm (lines_subset hd)).mp ht⟩

theorem Reaches.comm {c : Color} {pc : Piece} {s t : Square} (h : Reaches occ c pc s t) :
    Reaches occ (invert c) pc t s := by
  cases pc with
  | pawn =>
    simp only [Reaches] at h ⊢
    rw [colDist_comm]
    cases c <;> simp only [forward, invert] at h ⊢ <;> omega
  | king =>
    simp only [Reaches] at h ⊢
    rwa [rowDist_comm, colDist_comm]
  | knight =>
    simp only [Reaches] at h ⊢
    rwa [rowDist_comm, colDist_comm]
  | bishop => exact slides_comm h
  | rook => exact slides_comm h
  | queen => exact slides_comm h

theorem reaches_comm {c : Color} {pc : Piece} {s t : Square} :
    Reaches occ c pc s t ↔ Reaches occ (invert c) pc t s :=
  ⟨Reaches.comm, fun h => by simpa using h.comm⟩

theorem Reaches.ne {c : Color} {pc : Piece} {s t : Square} (h : Reaches occ c pc s t) : s ≠ t := by
  have hslide : ∀ {d}, d ∈ dirs → t ∈ scan occ (ray d s) → s ≠ t := by
    rintro d hd ht rfl
    exact self_notMem_ray hd _ ((mem_scan occ).mp ht).1
  cases pc with
  | pawn =>
    rintro rfl
    have h2 := h.2
    simp [colDist] at h2
  | king =>
    rintro rfl
    simp [Reaches, rowDist, colDist] at h
  | knight =>
    rintro rfl
    simp [Reaches, rowDist, colDist] at h
  | bishop =>
    obtain ⟨d, hd, ht⟩ := h
    exact hslide (lines_subset hd) ht
  | rook =>
    obtain ⟨d, hd, ht⟩ := h
    exact hslide (lines_subset hd) ht
  | queen =>
    obtain ⟨d, hd, ht⟩ := h
    exact hslide (lines_subset hd) ht

theorem reaches_queen {occ : Square → Bool} {c : Color} {s t : Square} :
    Reaches occ c .queen s t ↔ Reaches occ c .bishop s t ∨ Reaches occ c .rook s t := by
  simp only [Reaches, lines, dirs, List.mem_append]
  constructor
  · rintro ⟨d, hd | hd, h⟩
    · exact Or.inr ⟨d, hd, h⟩
    · exact Or.inl ⟨d, hd, h⟩
  · rintro (⟨d, hd, h⟩ | ⟨d, hd, h⟩)
    · exact ⟨d, Or.inr hd, h⟩
    · exact ⟨d, Or.inl hd, h⟩

end Reach

end SoFCheck.Core.Mailbox
