import SoFCheck.Core.CellSum
import SoFCheck.Eval.Evaluate
import SoFCheck.Eval.Shipped

namespace SoFCheck.Eval.Incremental

open SoFCheck.Util.ValArray SoFCheck.Eval.Score SoFCheck.Eval.Weights SoFCheck.Eval.Evaluate
open SoFCheck.Core.Types SoFCheck.Core.Geometry SoFCheck.Core.BoardState SoFCheck.Core.Moves
open SoFCheck.Core.Mailbox SoFCheck.Core.Position SoFCheck.Core.Validate SoFCheck.Core.MoveMake
open SoFCheck.Core.MakeCells SoFCheck.Core.MakeBoard SoFCheck.Core.MakeValid
open SoFCheck.Core.MakeRegular SoFCheck.Core.MakeRefine SoFCheck.Core.PseudoLegal
open SoFCheck.Core.InitialPosition SoFCheck.Core.Sequence SoFCheck.Core.CellSum

/-- What the pairs stand for: elements of a group, in which the operators are
those of the group. -/
structure Denotation (P G : Type) [PairTraits P] [AddCommGroup G] where
  value : P → G
  value_empty : value PairTraits.empty = 0
  value_add : ∀ p q, value (p + q) = value p + value q
  value_sub : ∀ p q, value (p - q) = value p - value q
  value_neg : ∀ p, value (-p) = -value p
  value_addItems : ∀ p q r, PairTraits.addItems p q = some r → value r = value p + value q
  beq_iff : ∀ p q : P, (p == q) = true ↔ value p = value q

section Update

variable {n : Nat} {S P G : Type} [PairTraits P] [AddCommGroup G] (D : Denotation P G)
  (traits : WeightTraits n S P) (bundle : PsqBundle n)

def tagValue (tag : Tag P) : G × BitVec 32 := (D.value tag.psqCost, tag.stage)

/-- What a cell adds to the tag. -/
def cellValue (cell : Cell) (pos : Square) : G × BitVec 32 :=
  (D.value (psq traits bundle cell pos), stages cell)

theorem tagValue_from (b : Board) :
    tagValue D (tagFrom traits bundle b) = boardSum (cellValue D traits bundle) b.cells := by
  have hloop : ∀ (l : List Square) (tag : Tag P), tagValue D (l.foldl (fun tag i =>
      ⟨tag.psqCost + psq traits bundle (b.cells i) i, tag.stage + stages (b.cells i)⟩) tag) =
        tagValue D tag + (l.map fun i => cellValue D traits bundle (b.cells i) i).sum := by
    intro l
    induction l with
    | nil => exact fun tag => (add_zero _).symm
    | cons i l ih =>
      intro tag
      rw [List.foldl_cons, ih, List.map_cons, List.sum_cons, ← add_assoc]
      refine congrArg (· + _) (Prod.ext ?_ rfl)
      exact D.value_add _ _
  have hempty : tagValue D ⟨PairTraits.empty, 0⟩ = 0 := Prod.ext D.value_empty rfl
  rw [tagFrom, hloop, hempty, zero_add, boardSum, Fin.sum_univ_def]

theorem isValid_iff {tag : Tag P} {b : Board} : tag.isValid traits bundle b = true ↔
    tagValue D tag = boardSum (cellValue D traits bundle) b.cells := by
  rw [← tagValue_from, Tag.isValid, Bool.and_eq_true, D.beq_iff, beq_iff_eq, tagValue, tagValue,
    Prod.mk.injEq]

/-- How far the tables for castling are from what the pieces are worth. -/
def castlingError (color : Color) : MoveKind → G
  | .castlingKingside => D.value (psqKingsideUpd traits bundle color) -
      (D.value (psq traits bundle (makeCell color .king) (homeCell color 6)) -
        D.value (psq traits bundle (makeCell color .king) (homeCell color 4)) +
        D.value (psq traits bundle (makeCell color .rook) (homeCell color 5)) -
        D.value (psq traits bundle (makeCell color .rook) (homeCell color 7)))
  | .castlingQueenside => D.value (psqQueensideUpd traits bundle color) -
      (D.value (psq traits bundle (makeCell color .king) (homeCell color 2)) -
        D.value (psq traits bundle (makeCell color .king) (homeCell color 4)) +
        D.value (psq traits bundle (makeCell color .rook) (homeCell color 3)) -
        D.value (psq traits bundle (makeCell color .rook) (homeCell color 0)))
  | _ => 0

variable {D traits bundle} {b : Board} {k : MoveKind} {s t : Square} {tag tag' : Tag P}

theorem stages_pieces (color : Color) :
    stages (makeCell color .pawn) = stagePawn ∧ stages emptyCell = 0 := by
  cases color <;> decide

/-- The cases of `updated` that take the piece from `s` to `t`. -/
theorem tagValue_moved (hk : k ≠ .null ∧ k ≠ .castlingKingside ∧ k ≠ .castlingQueenside)
    (hs : isMoveKindPromote k = true → b.cells s = makeCell b.side .pawn)
    (h : tag.updated traits bundle b (mkMove k s t) = some tag') :
    tagValue D tag' = tagValue D tag - (cellValue D traits bundle (b.cells s) s +
        cellValue D traits bundle (b.cells t) t) +
      cellValue D traits bundle (if isMoveKindPromote k then
        makeCell b.side (moveKindPromotePiece k) else b.cells s) t -
      if k = .enpassant then cellValue D traits bundle (makeCell (invert b.side) .pawn)
        (toSquare (enpassantPawnPos b.side (toCoord t))) else 0 := by
  have hpawn := fun color => (stages_pieces color).1
  rw [Tag.updated] at h
  simp only [mkMove, toSquare_toCoord, hk.1, hk.2.1, hk.2.2, if_false] at h
  split at h
  · cases h
  · rename_i cost hcost
    have hvalue := D.value_addItems _ _ _ hcost
    split_ifs at h ⊢ with hp he he
    · subst he
      cases hp
    · cases h
      apply Prod.ext
      · simp only [tagValue, cellValue, D.value_add, D.value_sub, hvalue, Prod.fst_add,
          Prod.fst_sub, Prod.fst_zero]
        abel
      · simp only [tagValue, cellValue, hs hp, hpawn, Prod.snd_add, Prod.snd_sub, Prod.snd_zero]
        abel
    · cases h
      apply Prod.ext
      · simp only [tagValue, cellValue, D.value_add, D.value_sub, hvalue, Prod.fst_add,
          Prod.fst_sub]
      · simp only [tagValue, cellValue, hpawn, Prod.snd_add, Prod.snd_sub]
        abel
    · cases h
      apply Prod.ext
      · simp only [tagValue, cellValue, D.value_add, D.value_sub, hvalue, Prod.fst_add,
          Prod.fst_sub, Prod.fst_zero]
        abel
      · simp only [tagValue, cellValue, Prod.snd_add, Prod.snd_sub, Prod.snd_zero]
        abel

/-- The change of the tag is that of the cells, but for the error of castling. -/
theorem tagValue_updated (h0 : ∀ pos, D.value (psq traits bundle emptyCell pos) = 0)
    (hm : Shape b.cells b.side k s t) (h : tag.updated traits bundle b (mkMove k s t) = some tag') :
    tagValue D tag' = tagValue D tag + (boardSum (cellValue D traits bundle)
        (movedCells b.cells b.side k s t) - boardSum (cellValue D traits bundle) b.cells) +
      (castlingError D traits bundle b.side k, 0) := by
  have hempty : ∀ pos, cellValue D traits bundle emptyCell pos = 0 := fun pos =>
    Prod.ext (h0 pos) (stages_pieces .white).2
  have hzero : ((0 : G), (0 : BitVec 32)) = 0 := rfl
  cases k with
  | null =>
    cases h
    simp [movedCells, castlingError]
  | invalid => exact hm.elim
  | simple | pawnDoubleMove =>
    rw [tagValue_moved (by decide) (fun hp => by cases hp) h, movedCells,
      boardSum_relocate hempty hm.1]
    simp only [isMoveKindPromote, Bool.false_eq_true, reduceCtorEq, if_false, castlingError, hzero]
    abel
  | enpassant =>
    obtain ⟨hne, h1, h2, hs, ht, htk⟩ := hm
    rw [tagValue_moved (by decide) (fun hp => by cases hp) h, movedCells, boardSum_update,
      boardSum_relocate hempty hne, relocateCells, Function.update_of_ne h2.symm,
      Function.update_of_ne h1.symm, htk, hempty]
    simp only [isMoveKindPromote, Bool.false_eq_true, if_false, if_true, castlingError, hzero]
    abel
  | castlingKingside =>
    obtain ⟨rfl, rfl, h4, h5, h6, h7⟩ := hm
    cases h
    rw [movedCells, boardSum_castling hempty (by simp [homeCell_inj]) (by simp [homeCell_inj])
      (by simp [homeCell_inj]) (by simp [homeCell_inj]) h6 h7 h5, h4]
    apply Prod.ext
    · simp only [tagValue, cellValue, castlingError, D.value_add, Prod.fst_add, Prod.fst_sub]
      abel
    · simp only [tagValue, cellValue, Prod.snd_add, Prod.snd_sub]
      abel
  | castlingQueenside =>
    obtain ⟨rfl, rfl, h0, h2, h3, h4⟩ := hm
    cases h
    rw [movedCells, boardSum_castling hempty (by simp [homeCell_inj]) (by simp [homeCell_inj])
      (by simp [homeCell_inj]) (by simp [homeCell_inj]) h2 h0 h3, h4]
    apply Prod.ext
    · simp only [tagValue, cellValue, castlingError, D.value_add, Prod.fst_add, Prod.fst_sub]
      abel
    · simp only [tagValue, cellValue, Prod.snd_add, Prod.snd_sub]
      abel
  | promoteKnight | promoteBishop | promoteRook | promoteQueen =>
    rw [tagValue_moved (by decide) (fun _ => hm.2.1) h, movedCells,
      boardSum_relocate hempty hm.1]
    simp only [isMoveKindPromote, reduceCtorEq, if_true, if_false, castlingError, hzero]
    abel

theorem isValid_updated (h0 : ∀ pos, D.value (psq traits bundle emptyCell pos) = 0)
    (hm : Shape b.cells b.side k s t) {b' : Board} (hb' : b'.cells = movedCells b.cells b.side k s t)
    (htag : tag.isValid traits bundle b = true)
    (h : tag.updated traits bundle b (mkMove k s t) = some tag') :
    tag'.isValid traits bundle b' = true ↔ castlingError D traits bundle b.side k = 0 := by
  have hvalue : tagValue D tag' = boardSum (cellValue D traits bundle) b'.cells +
      (castlingError D traits bundle b.side k, 0) := by
    rw [tagValue_updated h0 hm h, (isValid_iff D traits bundle).mp htag, hb']
    abel
  rw [isValid_iff D, hvalue, add_eq_left]
  exact ⟨fun he => congrArg Prod.fst he, fun he => Prod.ext he rfl⟩

theorem isSome_updated : (tag.updated traits bundle b (mkMove k s t)).isSome = true ↔
    k = .null ∨ k = .castlingKingside ∨ k = .castlingQueenside ∨
      (PairTraits.addItems (psq traits bundle (b.cells s) s)
        (psq traits bundle (b.cells t) t)).isSome = true := by
  rw [Tag.updated]
  simp only [mkMove, toSquare_toCoord]
  by_cases h1 : k = .null
  · simp [h1]
  · by_cases h2 : k = .castlingKingside
    · simp [h2]
    · by_cases h3 : k = .castlingQueenside
      · simp [h3]
      · rw [if_neg h1, if_neg h2, if_neg h3]
        cases PairTraits.addItems (psq traits bundle (b.cells s) s)
            (psq traits bundle (b.cells t) t) with
        | none => simp [h1, h2, h3]
        | some cost =>
          dsimp only
          split_ifs <;> simp

theorem isValid_step [Globals] (h0 : ∀ pos, D.value (psq traits bundle emptyCell pos) = 0)
    (hb : Regular b) {m : Move} (hm : Playable b m) (htag : tag.isValid traits bundle b = true) :
    (∃ tag', tag.updated traits bundle b m = some tag' ∧
        tag'.isValid traits bundle (moveMake b m).1 = true) ↔
      (tag.updated traits bundle b m).isSome = true ∧
        castlingError D traits bundle b.side m.kind = 0 := by
  change (∃ tag', tag.updated traits bundle b (untag m) = some tag' ∧
      tag'.isValid traits bundle (moveMake b (untag m)).1 = true) ↔
    (tag.updated traits bundle b (untag m)).isSome = true ∧
      castlingError D traits bundle b.side (untag m).kind = 0
  have hshape : ∃ k s t, untag m = mkMove k s t ∧ Shape b.cells b.side k s t := by
    obtain he | ⟨k, s, t, he, hp⟩ := playable_cases hb hm
    · exact ⟨.null, 0, 0, by rw [he, null_eq], trivial⟩
    · exact ⟨k, s, t, he, shape_of_pseudo hb hp⟩
  obtain ⟨k, s, t, he, hs⟩ := hshape
  have hcells := moveMake_cells hb.synced hs
  rw [he]
  constructor
  · rintro ⟨tag', hu, hv⟩
    exact ⟨Option.isSome_iff_exists.mpr ⟨tag', hu⟩,
      (isValid_updated h0 hs hcells htag hu).mp hv⟩
  · rintro ⟨hu, herr⟩
    obtain ⟨tag', hu⟩ := Option.isSome_iff_exists.mp hu
    exact ⟨tag', hu, (isValid_updated h0 hs hcells htag hu).mpr herr⟩

end Update

section Castling

variable {n : Nat} {S P G : Type} [PairTraits P] [AddCommGroup G] (D : Denotation P G)
  (traits : WeightTraits n S P) (bundle : PsqBundle n)

/-- How far the cost of a black piece is from the negated cost of the white one. -/
def negError (piece : Piece) (i : Square) : G :=
  -D.value (psqCost traits bundle .white piece i) - D.value (psqCost traits bundle .black piece i)

omit [PairTraits P] in
theorem psq_makeCell (color : Color) (piece : Piece) (pos : Square) :
    psq traits bundle (makeCell color piece) pos =
      psqCost traits bundle color piece (if color = .white then pos else coordFlipX pos) := by
  rw [psq, pieceOf_makeCell]

theorem castlingError_white (k : MoveKind) : castlingError D traits bundle .white k = 0 := by
  cases k with
  | castlingKingside =>
    rw [castlingError, psqKingsideUpd, if_pos rfl, kingsideCastling]
    simp only [D.value_add, D.value_sub]
    exact sub_self _
  | castlingQueenside =>
    rw [castlingError, psqQueensideUpd, if_pos rfl, queensideCastling]
    simp only [D.value_add, D.value_sub]
    exact sub_self _
  | _ => rfl

theorem castlingError_black : castlingError D traits bundle .black .castlingKingside =
      negError D traits bundle .king 62 - negError D traits bundle .king 60 +
        negError D traits bundle .rook 61 - negError D traits bundle .rook 63 ∧
    castlingError D traits bundle .black .castlingQueenside =
      negError D traits bundle .king 58 - negError D traits bundle .king 60 +
        negError D traits bundle .rook 59 - negError D traits bundle .rook 56 := by
  have hflip : coordFlipX (homeCell .black 0) = 56 ∧ coordFlipX (homeCell .black 2) = 58 ∧
      coordFlipX (homeCell .black 3) = 59 ∧ coordFlipX (homeCell .black 4) = 60 ∧
      coordFlipX (homeCell .black 5) = 61 ∧ coordFlipX (homeCell .black 6) = 62 ∧
      coordFlipX (homeCell .black 7) = 63 := by decide
  have hcoord : toSquare (makeCoord 7 0) = 56 ∧ toSquare (makeCoord 7 2) = 58 ∧
      toSquare (makeCoord 7 3) = 59 ∧ toSquare (makeCoord 7 4) = 60 ∧
      toSquare (makeCoord 7 5) = 61 ∧ toSquare (makeCoord 7 6) = 62 ∧
      toSquare (makeCoord 7 7) = 63 := by decide
  obtain ⟨f0, f2, f3, f4, f5, f6, f7⟩ := hflip
  obtain ⟨c0, c2, c3, c4, c5, c6, c7⟩ := hcoord
  constructor
  · rw [castlingError, psqKingsideUpd, if_neg (by decide), kingsideCastling, whiteKing, whiteRook]
    simp only [psq_makeCell, D.value_neg, D.value_add, D.value_sub, negError, reduceCtorEq, if_true,
      if_false, f4, f5, f6, f7, c4, c5, c6, c7]
    abel
  · rw [castlingError, psqQueensideUpd, if_neg (by decide), queensideCastling, whiteKing, whiteRook]
    simp only [psq_makeCell, D.value_neg, D.value_add, D.value_sub, negError, reduceCtorEq, if_true,
      if_false, f0, f2, f3, f4, c0, c2, c3, c4]
    abel

end Castling

section Coefs

variable {n : Nat} (bundle : PsqBundle n)

/-- Sparse arrays stand for vectors. -/
def coefsMeaning (n : Nat) : Denotation (CoefsPair n) ((Fin n → Int) × (Fin n → Int)) where
  value p := (p.first.take, p.second.take)
  value_empty := rfl
  value_add p q := Prod.ext (SparseValArray.take_add _ _) (SparseValArray.take_add _ _)
  value_sub p q := Prod.ext (SparseValArray.take_sub _ _) (SparseValArray.take_sub _ _)
  value_neg p := Prod.ext (SparseValArray.take_neg _) (SparseValArray.take_neg _)
  value_addItems p q r h := by
    obtain ⟨first, hfirst, h⟩ := Option.bind_eq_some_iff.mp h
    obtain ⟨second, hsecond, h⟩ := Option.bind_eq_some_iff.mp h
    cases h
    obtain ⟨-, rfl⟩ := (SparseValArray.addWithin_eq_some _ _).mp hfirst
    obtain ⟨-, rfl⟩ := (SparseValArray.addWithin_eq_some _ _).mp hsecond
    exact Prod.ext (SparseValArray.take_add _ _) (SparseValArray.take_add _ _)
  beq_iff p q := by
    rw [Prod.mk.injEq, ← decide_eq_true_iff (p := p.first.take = _),
      ← decide_eq_true_iff (p := p.second.take = _), ← Bool.and_eq_true]
    rfl

theorem psq_emptyCell_coefs (pos : Square) : (coefsMeaning n).value
    (psq (coefsWeights n) bundle emptyCell pos) = 0 := rfl

theorem negError_coefs (piece : Piece) (i : Square) :
    negError (coefsMeaning n) (coefsWeights n) bundle piece i = 0 := by
  have hneg : ∀ n1 n2 : Fin n, ((coefsWeights n).negNumber2 n1 n2).take =
      -((coefsWeights n).number2 n1 n2).take := by
    intro n1 n2
    simp only [coefsWeights, SparseValArray.take_add_item, SparseValArray.take_empty, zero_add,
      Pi.single_neg, neg_add]
  rw [negError, sub_eq_zero, psqCost, psqCost]
  by_cases hk : piece = .king
  · rw [if_pos hk, if_pos hk]
    exact Prod.ext (hneg _ _).symm (hneg _ _).symm
  · rw [if_neg hk, if_neg hk]
    exact Prod.ext (hneg _ _).symm (hneg _ _).symm

theorem castlingError_coefs (color : Color) (k : MoveKind) :
    castlingError (coefsMeaning n) (coefsWeights n) bundle color k = 0 := by
  cases color with
  | white => exact castlingError_white _ _ _ k
  | black =>
    obtain ⟨hking, hqueen⟩ := castlingError_black (coefsMeaning n) (coefsWeights n) bundle
    cases k with
    | castlingKingside => simp only [hking, negError_coefs, sub_zero, add_zero]
    | castlingQueenside => simp only [hqueen, negError_coefs, sub_zero, add_zero]
    | _ => rfl

/-- A piece fills the room for constants, an empty cell takes none of it. -/
theorem length_psq (pos : Square) (color : Color) (piece : Piece) :
    (psq (coefsWeights n) bundle emptyCell pos).first.storage.length = 0 ∧
      (psq (coefsWeights n) bundle emptyCell pos).second.storage.length = 0 ∧
      (psq (coefsWeights n) bundle (makeCell color piece) pos).first.storage.length = 2 ∧
      (psq (coefsWeights n) bundle (makeCell color piece) pos).second.storage.length = 2 := by
  have hn : 454 ≤ n := by
    have := bundle.fits
    omega
  have htwo : ∀ (n1 n2 : Fin n) (c : Int),
      ((SparseValArray.empty.add n1 c).add n2 c).storage.length = 2 := by
    intro n1 n2 c
    have hone : SparseValArray.empty.add n1 c = ⟨[(n1, c)]⟩ :=
      if_neg (by simp [SparseValArray.empty]; omega)
    rw [hone, SparseValArray.add, SparseValArray.tryCompactify, if_neg (by simp; omega)]
    rfl
  have hnum : ∀ n1 n2 : Fin n, ((coefsWeights n).number2 n1 n2).storage.length = 2 ∧
      ((coefsWeights n).negNumber2 n1 n2).storage.length = 2 :=
    fun n1 n2 => ⟨htwo n1 n2 coefUnit, htwo n1 n2 (-coefUnit)⟩
  refine ⟨rfl, rfl, ?_⟩
  rw [psq_makeCell, psqCost]
  by_cases hk : piece = .king
  · rw [if_pos hk]
    split
    · exact ⟨(hnum _ _).1, (hnum _ _).1⟩
    · exact ⟨(hnum _ _).2, (hnum _ _).2⟩
  · rw [if_neg hk]
    split
    · exact ⟨(hnum _ _).1, (hnum _ _).1⟩
    · exact ⟨(hnum _ _).2, (hnum _ _).2⟩

theorem isSome_addItems_coefs {x y : Cell} {s t : Square} (hx : isCellValid x = true)
    (hy : isCellValid y = true) (hne : x ≠ emptyCell) :
    (PairTraits.addItems (psq (coefsWeights n) bundle x s)
      (psq (coefsWeights n) bundle y t)).isSome = true ↔ y = emptyCell := by
  obtain ⟨c, p, rfl⟩ := (isCellValid_iff.mp hx).resolve_left hne
  obtain ⟨-, -, h1, h2⟩ := length_psq bundle s c p
  have hsome : ∀ q : CoefsPair n, (CoefsPair.addWithin itemCapacity
      (psq (coefsWeights n) bundle (makeCell c p) s) q).isSome = true ↔
        q.first.storage.length = 0 ∧ q.second.storage.length = 0 := by
    intro q
    have hle : ∀ k, 2 + k ≤ itemCapacity ↔ k = 0 := by
      intro k
      rw [itemCapacity]
      omega
    simp only [CoefsPair.addWithin, SparseValArray.addWithin, h1, h2, hle]
    split_ifs with hf hs <;> simp [*]
  refine (hsome _).trans ?_
  obtain rfl | ⟨d, q, rfl⟩ := isCellValid_iff.mp hy
  · obtain ⟨h3, h4, -, -⟩ := length_psq bundle t c p
    exact iff_of_true ⟨h3, h4⟩ rfl
  · obtain ⟨-, -, h3, h4⟩ := length_psq bundle t d q
    rw [h3, h4]
    simp

end Coefs

section Scores

variable {n : Nat} (weightValues : Fin n → Int16) (bundle : PsqBundle n)

/-- Pairs of scores are numbers of 32 bits. -/
def scoreDenotation : Denotation ScorePair (BitVec 32) where
  value := ScorePair.value
  value_empty := rfl
  value_add _ _ := rfl
  value_sub _ _ := rfl
  value_neg _ := rfl
  value_addItems p q r h := by
    cases h
    rfl
  beq_iff p q := by
    rw [beq_iff_eq]
    exact ScorePair.value_injective.eq_iff.symm

theorem psq_emptyCell_score (pos : Square) : scoreDenotation.value
    (psq (scoreWeights weightValues) bundle emptyCell pos) = 0 := rfl

/-- Whether the cost of a piece on a cell is the one score that has no negative. -/
def least (piece : Piece) (i : Square) : Bool :=
  (scoreWeights weightValues).number2 (bundle.pieceCosts piece) (bundle.table piece i) == -32768

theorem negError_score (piece : Piece) (i : Square) :
    negError scoreDenotation (scoreWeights weightValues) bundle piece i =
      if least weightValues bundle piece i then 65536 else 0 := by
  have hneg : ∀ x y : Int, -(ScorePair.from2 (toScore x) (toScore y)).value -
      (ScorePair.from2 (toScore (-x)) (toScore (-y))).value =
        if toScore x = -32768 then 65536 else 0 := by
    intro x y
    rw [ScorePair.value_from2_neg]
    abel
  rw [negError, psqCost, psqCost, least]
  simp only [beq_iff_eq]
  by_cases hk : piece = .king
  · rw [if_pos hk, if_pos hk]
    exact hneg _ _
  · rw [if_neg hk, if_neg hk]
    exact hneg _ _

/-- White can castle with any weights. Black does so when the tables were
negated without loss, or with equal losses on both sides. -/
def Balanced (b : Board) (m : Move) : Prop :=
  b.side = .black →
    (m.kind = .castlingKingside →
      (least weightValues bundle .king 62).toNat + (least weightValues bundle .rook 61).toNat =
        (least weightValues bundle .king 60).toNat + (least weightValues bundle .rook 63).toNat) ∧
    (m.kind = .castlingQueenside →
      (least weightValues bundle .king 58).toNat + (least weightValues bundle .rook 59).toNat =
        (least weightValues bundle .king 60).toNat + (least weightValues bundle .rook 56).toNat)

theorem castlingError_score (b : Board) (m : Move) :
    castlingError scoreDenotation (scoreWeights weightValues) bundle b.side m.kind = 0 ↔
      Balanced weightValues bundle b m := by
  have hsum : ∀ x y z w : Bool, ((if x = true then 65536 else 0) - (if y = true then 65536 else 0) +
      (if z = true then 65536 else 0) - (if w = true then 65536 else 0) : BitVec 32) = 0 ↔
        x.toNat + z.toNat = y.toNat + w.toNat := by decide
  obtain ⟨hking, hqueen⟩ := castlingError_black scoreDenotation (scoreWeights weightValues) bundle
  rw [Balanced]
  cases hside : b.side with
  | white => simp [castlingError_white]
  | black =>
    cases hk : m.kind with
    | castlingKingside =>
      rw [hking]
      simp only [negError_score, hsum]
      simp
    | castlingQueenside =>
      rw [hqueen]
      simp only [negError_score, hsum]
      simp
    | _ => simp [castlingError]

end Scores

section Lines

variable [Globals] {n : Nat} {S P G : Type} [PairTraits P] [AddCommGroup G]
  {traits : WeightTraits n S P} {bundle : PsqBundle n} {b : Board} {tag : Tag P} {ms : List Move}

/-- The tag that is carried along a line is always that of the current board. -/
def Tracked (traits : WeightTraits n S P) (bundle : PsqBundle n) (tag : Tag P) (b : Board) :
    List Move → Prop
  | [] => tag.isValid traits bundle b = true
  | m :: ms => tag.isValid traits bundle b = true ∧
      ∃ tag', tag.updated traits bundle b m = some tag' ∧
        Tracked traits bundle tag' (moveMake b m).1 ms

theorem isValid_of_tracked (h : Tracked traits bundle tag b ms) :
    tag.isValid traits bundle b = true := by
  cases ms with
  | nil => exact h
  | cons m ms => exact h.1

omit [Globals] in
theorem isValid_tagFrom (D : Denotation P G) (b : Board) :
    (tagFrom traits bundle b).isValid traits bundle b = true :=
  (isValid_iff D traits bundle).mpr (tagValue_from D traits bundle b)

theorem tracked_iff {C : Board → Move → Prop}
    (hstep : ∀ {b : Board} {tag : Tag P} {m : Move}, Regular b → Playable b m →
      tag.isValid traits bundle b = true →
        ((∃ tag', tag.updated traits bundle b m = some tag' ∧
          tag'.isValid traits bundle (moveMake b m).1 = true) ↔ C b m))
    (hb : Valid b) (hline : SearchLine b ms) (htag : tag.isValid traits bundle b = true) :
    Tracked traits bundle tag b ms ↔ Along C b ms := by
  induction ms generalizing b tag with
  | nil => exact iff_of_true htag trivial
  | cons m ms ih =>
    obtain ⟨hm, hlegal, hms⟩ := hline
    have hreg := regular_playable hb hm
    have hiff := hstep (valid_iff.mp hb).1 hm htag
    -- A line that goes on does so on a valid board.
    have hrest : ∀ {tag' : Tag P}, tag'.isValid traits bundle (moveMake b m).1 = true →
        (Tracked traits bundle tag' (moveMake b m).1 ms ↔ Along C (moveMake b m).1 ms) := by
      intro tag' htag'
      cases ms with
      | nil => exact iff_of_true htag' trivial
      | cons m' ms => exact ih (valid_iff.mpr ⟨hreg, hlegal (List.cons_ne_nil _ _)⟩) hms htag'
    constructor
    · intro h
      obtain ⟨-, tag', hupd, htracked⟩ := h
      have htag' := isValid_of_tracked htracked
      exact ⟨hiff.mp ⟨tag', hupd, htag'⟩, (hrest htag').mp htracked⟩
    · intro h
      obtain ⟨hC, halong⟩ := h
      obtain ⟨tag', hupd, htag'⟩ := hiff.mpr hC
      exact ⟨htag, tag', hupd, (hrest htag').mpr halong⟩

end Lines

section Claims

variable [Globals] {n : Nat} {weightValues : Fin n → Int16} {bundle : PsqBundle n}
  {b : Board} {m : Move} {ms : List Move}

/-- The coefficients of a move have room when nothing stands where it goes. -/
def Quiet (b : Board) (m : Move) : Prop :=
  m.kind = .null ∨ b.cells (toSquare m.dst) = emptyCell

theorem isSome_updated_coefs (hb : Regular b) (hm : Playable b m) {tag : Tag (CoefsPair n)} :
    (tag.updated (coefsWeights n) bundle b m).isSome = true ↔ Quiet b m := by
  change (tag.updated (coefsWeights n) bundle b (untag m)).isSome = true ↔ Quiet b (untag m)
  obtain he | ⟨k, s, t, he, hp⟩ := playable_cases hb hm
  · rw [he, null_eq, isSome_updated, Quiet]
    simp [mkMove]
  · have hshape := shape_of_pseudo hb hp
    have hne : k = .null ∨ k = .castlingKingside ∨ k = .castlingQueenside ∨
        b.cells s ≠ emptyCell := shape_source hshape
    have hmove : k = .castlingKingside ∨ k = .castlingQueenside → b.cells t = emptyCell :=
      shape_castling hshape
    rw [he, isSome_updated, Quiet]
    simp only [mkMove, toSquare_toCoord]
    obtain rfl | hk | hk | hs := hne
    · simp
    · simp [hk, hmove (Or.inl hk)]
    · simp [hk, hmove (Or.inr hk)]
    · rw [isSome_addItems_coefs bundle (hb.cells s) (hb.cells t) hs]
      refine or_congr_right ⟨fun h => ?_, fun h => Or.inr (Or.inr h)⟩
      exact or_assoc.mpr h |>.elim hmove id

theorem isSome_updated_score (hb : Regular b) (hm : Playable b m) {tag : Tag ScorePair} :
    (tag.updated (scoreWeights weightValues) bundle b m).isSome = true := by
  change (tag.updated (scoreWeights weightValues) bundle b (untag m)).isSome = true
  obtain he | ⟨k, s, t, he, -⟩ := playable_cases hb hm
  · rw [he, null_eq, isSome_updated]
    exact Or.inl rfl
  · rw [he, isSome_updated]
    exact Or.inr (Or.inr (Or.inr rfl))

theorem tracked_score (hb : Valid b) (hline : SearchLine b ms) :
    Tracked (scoreWeights weightValues) bundle (tagFrom (scoreWeights weightValues) bundle b) b ms ↔
      Along (Balanced weightValues bundle) b ms := by
  apply tracked_iff _ hb hline (isValid_tagFrom scoreDenotation b)
  intro b tag m hr hm htag
  rw [isValid_step (D := scoreDenotation) (psq_emptyCell_score weightValues bundle) hr hm htag,
    castlingError_score]
  exact and_iff_right (isSome_updated_score hr hm)

theorem tracked_coefs (hb : Valid b) (hline : SearchLine b ms) :
    Tracked (coefsWeights n) bundle (tagFrom (coefsWeights n) bundle b) b ms ↔ Along Quiet b ms := by
  apply tracked_iff _ hb hline (isValid_tagFrom (coefsMeaning n) b)
  intro b tag m hr hm htag
  rw [isValid_step (D := coefsMeaning n) (psq_emptyCell_coefs bundle) hr hm htag,
    isSome_updated_coefs hr hm]
  exact and_iff_left (castlingError_coefs bundle b.side m.kind)

/-- The tag of the scores and the tag of the coefficients along a line. -/
theorem tag_tracked (hb : Valid b) (hline : SearchLine b ms) :
    (Tracked (scoreWeights weightValues) bundle (tagFrom (scoreWeights weightValues) bundle b) b ms ↔
      Along (Balanced weightValues bundle) b ms) ∧
    (Tracked (coefsWeights n) bundle (tagFrom (coefsWeights n) bundle b) b ms ↔
      Along Quiet b ms) :=
  ⟨tracked_score hb hline, tracked_coefs hb hline⟩

instance decidableBalanced (weightValues : Fin n → Int16) (bundle : PsqBundle n) (b : Board)
    (m : Move) : Decidable (Balanced weightValues bundle b m) :=
  inferInstanceAs (Decidable (_ → _ ∧ _))

instance decidableQuiet (b : Board) (m : Move) : Decidable (Quiet b m) :=
  inferInstanceAs (Decidable (_ ∨ _))

omit [Globals] in
theorem along_variedMoves : letI := spreadGlobals
    Along (Balanced Shipped.weightValues Shipped.shippedFeatures.psq) variedBoard variedMoves ∧
      ¬Along Quiet variedBoard variedMoves := by
  decide +kernel

omit [Globals] in
/-- The pawn that becomes a knight takes a rook. -/
theorem tag_tracked_varied : letI := spreadGlobals
    Tracked (scoreWeights Shipped.weightValues) Shipped.shippedFeatures.psq
        (tagFrom (scoreWeights Shipped.weightValues) Shipped.shippedFeatures.psq variedBoard)
        variedBoard variedMoves ∧
      ¬Tracked (coefsWeights Shipped.featureCount) Shipped.shippedFeatures.psq
        (tagFrom (coefsWeights Shipped.featureCount) Shipped.shippedFeatures.psq variedBoard)
        variedBoard variedMoves := by
  let _ := spreadGlobals
  obtain ⟨hbalanced, hquiet⟩ := along_variedMoves
  obtain ⟨hscore, hcoefs⟩ := @tag_tracked spreadGlobals _ Shipped.weightValues
    Shipped.shippedFeatures.psq _ _ valid_variedBoard searchLine_variedMoves
  exact ⟨hscore.mpr hbalanced, fun h => hquiet (hcoefs.mp h)⟩

/-- The weights of no other features. -/
def psqOnly : PsqBundle 454 := ⟨0, by decide⟩

/-- Black may castle or take a pawn. -/
def choice : Board :=
  { initialFields with
    cells := fun s => if s = 60 then makeCell .white .king else if s = 36 then makeCell .white .pawn
      else if s = 4 then makeCell .black .king else if s = 7 then makeCell .black .rook
      else if s = 27 then makeCell .black .pawn else emptyCell
    side := .black
    castling := Castling.blackKingside }

theorem position_choice :
    position (update choice) = position choice ∧ (update choice).side = .black :=
  position_update (by decide) (by decide)

theorem valid_choice : Valid (update choice) :=
  valid_update_of_cells ⟨by decide, by decide, fun h => absurd rfl h⟩ (by decide +kernel)
    (by decide +kernel) (by decide +kernel) (by decide +kernel)

theorem playable_of_pseudo {k : MoveKind} {s t : Square} (hb : Valid b)
    (h : (position b).Pseudo k s t) : Playable b (mkMove k s t) := by
  obtain ⟨hw, hv⟩ := (isMoveValid_iff (valid_iff.mp hb).1).mpr h
  exact ⟨hw, Or.inr hv⟩

theorem playable_choice : Playable (update choice) (mkMove .simple 27 36) ∧
    Playable (update choice) (mkMove .castlingKingside 4 6) := by
  constructor
  · apply playable_of_pseudo valid_choice
    rw [position_choice.1]
    exact .capture (by decide) (by decide) ⟨.pawn, by decide⟩ rfl
  · apply playable_of_pseudo valid_choice
    rw [position_choice.1]
    exact .castlingKingside (by decide) (by decide) (by decide) (by decide) (by decide)
      (by decide +kernel) (by decide +kernel)

/-- A king that costs the least score on its home cell. -/
def heavyKing : Fin 454 → Int16 := fun i =>
  if i = psqOnly.pieceCosts .king then -32767 else if i = psqOnly.table .king 60 then -1 else 0

omit [Globals] in
theorem least_heavyKing : least heavyKing psqOnly .king 62 = false ∧
    least heavyKing psqOnly .rook 61 = false ∧ least heavyKing psqOnly .king 60 = true ∧
    least heavyKing psqOnly .rook 63 = false := by
  decide +kernel

omit [Globals] in
theorem not_tag_tracked : letI := spreadGlobals
    ¬(∀ b ms, Valid b → SearchLine b ms →
      Tracked (coefsWeights 454) psqOnly (tagFrom (coefsWeights 454) psqOnly b) b ms) ∧
    ¬(∀ b ms, Valid b → SearchLine b ms →
      Tracked (scoreWeights heavyKing) psqOnly (tagFrom (scoreWeights heavyKing) psqOnly b) b ms) := by
  let _ := spreadGlobals
  obtain ⟨hcapture, hcastling⟩ := playable_choice
  have hline : ∀ {m}, Playable (update choice) m → SearchLine (update choice) [m] :=
    fun h => ⟨h, fun hne => absurd rfl hne, trivial⟩
  obtain ⟨hpos, hside⟩ := position_choice
  constructor
  · intro h
    have htracked := h _ _ valid_choice (hline hcapture)
    obtain ⟨hquiet, -⟩ := (tracked_coefs valid_choice (hline hcapture)).mp htracked
    have hpawn : (position (update choice)).pieceAt 36 = some (.white, .pawn) := by
      rw [hpos]
      decide
    obtain hk | hempty := hquiet
    · cases hk
    · simp only [mkMove, toSquare_toCoord] at hempty
      exact makeCell_ne_emptyCell _ _ ((pieceAt_eq_some.mp hpawn).symm.trans hempty)
  · intro h
    have htracked := h _ _ valid_choice (hline hcastling)
    obtain ⟨hbalanced, -⟩ := (tracked_score valid_choice (hline hcastling)).mp htracked
    have hsum := (hbalanced hside).1 rfl
    rw [least_heavyKing.1, least_heavyKing.2.1, least_heavyKing.2.2.1, least_heavyKing.2.2.2] at hsum
    cases hsum

end Claims

end SoFCheck.Eval.Incremental
