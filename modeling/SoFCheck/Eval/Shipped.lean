import SoFCheck.Eval.Features
import SoFCheck.Eval.Impl

namespace SoFCheck.Eval.Shipped

open SoFCheck.Eval.Feat SoFCheck.Eval.Weights SoFCheck.Eval.Impl

def numbers (values : List Int) : Json := .array (values.map fun value => .number value)

section File

def psqCost : List Int := [
  100, 0, 325, 352, 531, 1012]

def psqPawn : List Int := [
  0, 0, 0, 0, 0, 0, 0, 0,
  157, 172, 170, 124, 151, 203, 189, 179,
  83, 78, 60, 64, 66, 84, 76, 67,
  23, 13, 1, -3, 10, 13, -2, 4,
  1, -8, -16, -12, -16, -7, -1, -15,
  -4, -13, -14, -23, -14, -13, -20, -16,
  4, -11, -14, -60, -46, -11, -12, -16,
  0, 0, 0, 0, 0, 0, 0, 0]

def psqKing : List Int := [
  84, 72, 23, -36, 189, 204, 240, 188,
  104, -10, -22, -11, -146, -20, -446, 42,
  -17, -133, -16, -152, -199, -352, -335, 4,
  -1, -79, 5, -41, -76, -98, -45, -89,
  9, 48, 7, 62, 26, 51, 36, -8,
  50, 26, -28, 29, 79, 51, 53, -30,
  116, -10, 44, -12, -6, 21, 68, 79,
  -146, 26, 4, -66, 9, -57, 17, -9]

def psqKnight : List Int := [
  -118, -72, -14, 0, -39, -41, -37, -133,
  -49, -10, 16, 18, 17, 22, 19, -4,
  -78, 4, 27, 37, 44, 60, 17, 13,
  -7, 21, 40, 57, 37, 36, 23, 18,
  -27, 5, 23, 14, 30, 30, 27, -5,
  -64, -33, 0, 2, 20, 14, -18, -10,
  -80, -27, -27, 1, 5, 3, -64, -31,
  -50, -60, -50, -21, -70, -35, -38, -14]

def psqBishop : List Int := [
  19, 4, -7, -17, 0, 2, 9, 18,
  -47, -8, -2, 0, 20, 16, 19, -1,
  -15, 0, 15, 22, 21, 48, 17, 45,
  -21, -11, 17, 15, 24, 0, 0, -9,
  1, 0, 13, 28, 1, 2, 1, -23,
  -36, -6, 4, 8, 11, 7, 2, -28,
  -5, -9, 1, -14, -5, -10, -8, -60,
  -41, -35, -52, -5, -9, -52, -69, -35]

def psqRook : List Int := [
  -3, 24, 12, 29, 27, 31, 30, 22,
  33, 29, 30, 17, 31, 38, 23, 21,
  22, 13, 12, 13, 23, 33, 17, 11,
  13, 14, 15, 4, 4, 10, 5, -4,
  -17, 1, -6, -3, 2, -1, -2, -8,
  -28, -23, -17, -24, -20, -17, -18, -35,
  -45, -27, -41, -28, -27, -23, -26, -53,
  -24, -20, -23, -12, -8, -12, -20, -26]

def psqQueen : List Int := [
  1, 31, 13, 37, -3, 3, 2, -5,
  -22, -34, 41, 36, 0, 23, -7, 40,
  -49, 16, -5, -1, 24, 21, 18, 17,
  6, -4, 0, -2, 28, 19, 22, 21,
  -28, -4, 7, 13, -9, 22, -4, 11,
  -47, -5, 6, -6, 3, 15, 19, 0,
  -52, -32, -13, -19, -2, 9, -10, -58,
  8, -68, -44, -19, -38, -69, -194, -99]

def psqKingEnd : List Int := [
  -52, -19, 5, 4, -8, -15, -6, -99,
  -33, 77, 41, 62, 30, 39, 40, -20,
  35, 87, 77, 63, 43, 58, 65, 16,
  38, 37, 27, 39, 39, 33, 28, -8,
  -6, 1, 1, -1, 9, -3, -3, -28,
  -51, -18, -7, -3, -11, -14, -26, -25,
  -51, -11, -27, -7, -5, -15, -28, -43,
  4, -81, -30, -37, -79, -24, -69, -70]

def kingPawnShield : List Int := [
  9, 65, 7, 24, 56, -15]

def kingPawnStorm : List Int := [
  -78, -23, 49, 22, 2, 7]

/-- `features.json` -/
def featuresFile : Json :=
  .array [
    .object [("psq", .object [
      ("type", .string "psq"),
      ("cost", numbers psqCost),
      ("pawn", numbers psqPawn),
      ("king", numbers psqKing),
      ("knight", numbers psqKnight),
      ("bishop", numbers psqBishop),
      ("rook", numbers psqRook),
      ("queen", numbers psqQueen),
      ("king_end", numbers psqKingEnd)])],
    .object [("queen_near_to_king", .number (-17))],
    .object [("rook_near_to_king", .number (-1))],
    .object [("two_bishops", .number 34)],
    .object [("pawn_isolated", .number (-10))],
    .object [("pawn_double", .number (-6))],
    .object [("pawn_passed", .number 40)],
    .object [("pawn_candidate", .number 14)],
    .object [("pawn_open", .number 4)],
    .object [("pawn_protected", .number 6)],
    .object [("pawn_backward", .number (-4))],
    .object [("king_pawn", .object [
      ("type", .string "king_pawn"),
      ("shield", numbers kingPawnShield),
      ("storm", numbers kingPawnStorm)])],
    .object [("rook_open_col", .number 40)],
    .object [("rook_semi_open_col", .number 36)],
    .object [("queen_open_col", .number 8)],
    .object [("queen_semi_open_col", .number 16)]]

end File

/-- The array `WEIGHT_VALUES` that is generated from the file. -/
def weightList : List Int :=
  psqCost ++ psqPawn ++ psqKing ++ psqKnight ++ psqBishop ++ psqRook ++ psqQueen ++ psqKingEnd ++
    [-17, -1, 34, -10, -6, 40, 14, 4, 6, -4] ++ kingPawnShield ++ kingPawnStorm ++ [40, 36, 8, 16]

def featureCount : Nat := 480

def weightValues (i : Fin featureCount) : Int16 := Int16.ofInt (weightList.getD i 0)

def shippedFeatures : FeatureSet featureCount where
  psq := ⟨0, by decide⟩
  queenNearToKing := ⟨454, by decide⟩
  rookNearToKing := ⟨455, by decide⟩
  twoBishops := ⟨456, by decide⟩
  pawnIsolated := ⟨457, by decide⟩
  pawnDouble := ⟨458, by decide⟩
  pawnPassed := ⟨459, by decide⟩
  pawnCandidate := ⟨460, by decide⟩
  pawnOpen := ⟨461, by decide⟩
  pawnProtected := ⟨462, by decide⟩
  pawnBackward := ⟨463, by decide⟩
  kingPawn := ⟨464, by decide⟩
  rookOpenCol := ⟨476, by decide⟩
  rookSemiOpenCol := ⟨477, by decide⟩
  queenOpenCol := ⟨478, by decide⟩
  queenSemiOpenCol := ⟨479, by decide⟩

/-- The names in the file with the offsets of `shippedFeatures`. -/
def layout : List (String × Nat) :=
  [("psq", shippedFeatures.psq.offset), ("queen_near_to_king", shippedFeatures.queenNearToKing),
    ("rook_near_to_king", shippedFeatures.rookNearToKing),
    ("two_bishops", shippedFeatures.twoBishops), ("pawn_isolated", shippedFeatures.pawnIsolated),
    ("pawn_double", shippedFeatures.pawnDouble), ("pawn_passed", shippedFeatures.pawnPassed),
    ("pawn_candidate", shippedFeatures.pawnCandidate), ("pawn_open", shippedFeatures.pawnOpen),
    ("pawn_protected", shippedFeatures.pawnProtected),
    ("pawn_backward", shippedFeatures.pawnBackward), ("king_pawn", shippedFeatures.kingPawn.offset),
    ("rook_open_col", shippedFeatures.rookOpenCol),
    ("rook_semi_open_col", shippedFeatures.rookSemiOpenCol),
    ("queen_open_col", shippedFeatures.queenOpenCol),
    ("queen_semi_open_col", shippedFeatures.queenSemiOpenCol)]

theorem load_featuresFile : ∃ f, Features.load featuresFile = .ok f ∧ f.count = featureCount ∧
    f.extract = some (weightList.map Int32.ofInt) ∧
    f.bundles.map (fun bundle => (bundle.name.name, bundle.name.offset)) = layout := by
  have h : (Features.load featuresFile).toOption.any (fun f =>
      decide (f.count = featureCount ∧ f.bundles.flatMap Bundle.read = weightList.map Int32.ofInt ∧
        f.bundles.map (fun bundle => (bundle.name.name, bundle.name.offset)) = layout)) = true := by
    decide +kernel
  obtain ⟨f, hf, hall⟩ := (Option.any_eq_true _ _).mp h
  obtain ⟨hcount, hread, hlayout⟩ := of_decide_eq_true hall
  cases hload : Features.load featuresFile with
  | error e =>
    rw [hload] at hf
    cases hf
  | ok g =>
    rw [hload] at hf
    obtain rfl := Option.some.inj hf
    obtain ⟨keys, hregular⟩ := Features.regular_of_load hload
    exact ⟨g, rfl, hcount, by rw [hregular.extract_read, hread], hlayout⟩

end SoFCheck.Eval.Shipped
