import ConfidentialTx.Proofs.Padding
import ConfidentialTx.Proofs.Traps

/-! # The prover of the inner-product argument does not trap

A dealer makes an inner-product argument out of vectors that its parties have sent.  Every round splits four
vectors, sums two times over halves of them, and folds them entry by entry; the factors of the generators are
used in the first round only.

* `RoundVectors.halves_eq`, `RoundVectors.crossPoints_eq`, `RoundVectors.foldTrapping_eq`: the parts of a round
  do not trap on vectors of equal, even length, with factors or without.
* `InnerProductProof.roundsTrapping_eq`: neither do all rounds, from vectors of length `2ᵏ` on.
* `InnerProductProof.createTrapping_eq`: the prover refuses all other vectors before the first round. -/

namespace ConfidentialTx

open Transcript Trapping

/-- The vectors of a round without factors. -/
structure RoundVectors (F P : Type) where
  (G H : List P)
  (a b : List F)

/-- The vectors of an argument without its factors. -/
def Argument.vectors {F P : Type} (v : Argument F P) : RoundVectors F P := ⟨v.G, v.H, v.a, v.b⟩

namespace RoundVectors
variable {F P : Type}

/-- Both halves of every vector. -/
def halves (half : ℕ) (v : RoundVectors F P) : Except Trap (RoundVectors F P × RoundVectors F P) := do
  let (aLow, aHigh) ← split v.a half
  let (bLow, bHigh) ← split v.b half
  let (GLow, GHigh) ← split v.G half
  let (HLow, HHigh) ← split v.H half
  pure (⟨GLow, HLow, aLow, bLow⟩, ⟨GHigh, HHigh, aHigh, bHigh⟩)

theorem halves_eq {v : Argument F P} {half : ℕ} (h : v.HasLength (half + half)) :
    v.vectors.halves half = .ok ((v.lower half).vectors, (v.upper half).vectors) := by
  have hsplit : ∀ {α : Type} {xs : List α}, xs.length = half + half →
      split xs half = .ok (xs.take half, xs.drop half) := fun hxs => split_eq (by omega)
  simp only [halves, Argument.vectors, hsplit h.a, hsplit h.b, hsplit h.G, hsplit h.H, bind, Except.bind]
  rfl

/-! ### Factors -/

section Factors
variable [Field F]

/-- The factors of `n` generators, all one if there are none. -/
def factorsD (factors : Option (List F)) (n : ℕ) : List F := factors.getD (List.replicate n 1)

/-- Scalars times the factors from one position up to another, if there are factors. -/
def scaled (factors : Option (List F)) (start stop : ℕ) (xs : List F) : Except Trap (Iter F) :=
  match factors with
  | none => .ok (.ofList xs)
  | some fs => do
    let fs ← part fs start stop
    pure (((Iter.ofList xs).zip (.ofList fs)).map fun (x, f) => x * f)

/-- A scalar times the factor in a place behind an offset, if there are factors. -/
def weighed (factors : Option (List F)) (offset i : ℕ) (s : F) : Except Trap F :=
  match factors with
  | none => .ok s
  | some fs => do
    let place ← add offset i
    let f ← entry fs place
    pure (s * f)

theorem scaled_eq {factors : Option (List F)} {n start stop : ℕ} (hlen : (factorsD factors n).length = n)
    (hstart : start ≤ stop) (hstop : stop ≤ n) {xs : List F} (hxs : xs.length = stop - start) :
    scaled factors start stop xs =
      .ok (.ofList (List.zipWith (· * ·) xs (((factorsD factors n).take stop).drop start))) := by
  cases factors with
  | none =>
    have hones : ((factorsD (none : Option (List F)) n).take stop).drop start =
        xs.map fun _ => (1 : F) := by
      rw [factorsD, Option.getD_none, List.take_replicate, List.drop_replicate, List.map_const', hxs,
        Nat.min_eq_left hstop]
    rw [hones, List.zipWith_map_right]
    simp [scaled]
  | some fs =>
    have hfs : fs.length = n := hlen
    rw [scaled, part_eq hstart (by omega)]
    exact congrArg Except.ok (Iter.map_zip_ofList _ _ _)

section Halves
variable {factors : Option (List F)} {fs xs : List F} {half : ℕ}

theorem scaled_lower (hfactors : factorsD factors (half + half) = fs) (hfs : fs.length = half + half)
    (hxs : xs.length = half) :
    scaled factors 0 half xs = .ok (.ofList (List.zipWith (· * ·) xs (fs.take half))) := by
  subst hfactors
  exact scaled_eq hfs (Nat.zero_le _) (Nat.le_add_left half half) hxs

theorem scaled_upper (hfactors : factorsD factors (half + half) = fs) (hfs : fs.length = half + half)
    (hxs : xs.length = half) :
    scaled factors half (half + half) xs = .ok (.ofList (List.zipWith (· * ·) xs (fs.drop half))) := by
  subst hfactors
  rw [scaled_eq hfs (Nat.le_add_left half half) le_rfl (by omega), List.take_of_length_le hfs.le]

end Halves

theorem weighed_eq {factors : Option (List F)} {fs : List F} {n offset i : ℕ} (hn : n < 2 ^ 64)
    (hfactors : factorsD factors n = fs) (hfs : fs.length = n) (hi : offset + i < fs.length) (s : F) :
    weighed factors offset i s = .ok (s * fs[offset + i]) := by
  subst hfactors
  cases factors with
  | none => simp [weighed, factorsD]
  | some fs =>
    have hplace : add offset i = .ok (offset + i) := add_eq (hi.trans (hfs.trans_lt hn))
    have hentry : entry fs (offset + i) = .ok fs[offset + i] := entry_eq hi
    simp only [weighed, hplace, hentry, bind, Except.bind]
    rfl

end Factors

/-! ### One round -/

variable [Field F] [MultiScalar F P]

/-- The point of scalars on two vectors of generators, and of their inner product. -/
def crossTrapping (Q : P) (a b : Iter F) (c : F) (G H : List P) : Except Trap P :=
  Iter.multiscalar (.chained a [b, .once c]) (.chained (.ofList G) [.ofList H, .once Q])

/-- The two points of a round. -/
def crossPoints (Q : P) (x y : Option (List F)) (half : ℕ) (low high : RoundVectors F P) :
    Except Trap (P × P) := do
  let stop ← mul 2 half
  let aLow ← scaled x half stop low.a
  let bHigh ← scaled y 0 half high.b
  let L ← crossTrapping Q aLow bHigh (innerProduct low.a high.b) high.G low.H
  let aHigh ← scaled x 0 half high.a
  let bLow ← scaled y half stop low.b
  let R ← crossTrapping Q aHigh bLow (innerProduct high.a low.b) low.G high.H
  pure (L, R)

/-- The sum of two vectors with a factor each, entry by entry. -/
def foldScalarsTrapping (s t : F) (half : ℕ) (low high : List F) : Except Trap (List F) :=
  (List.range half).mapM fun i => do
    let l ← entry low i
    let r ← entry high i
    pure (l * s + t * r)

/-- The sum of two vectors of generators, entry by entry. -/
def foldPointsTrapping (factors : Option (List F)) (s t : F) (half : ℕ) (low high : List P) :
    Except Trap (List P) :=
  (List.range half).mapM fun i => do
    let s ← weighed factors 0 i s
    let t ← weighed factors half i t
    let l ← entry low i
    let r ← entry high i
    Iter.multiscalar (.ofList [s, t]) (.ofList [l, r])

/-- Folds two halves with a challenge and its inverse. -/
def foldTrapping (x y : Option (List F)) (half : ℕ) (u v : F) (low high : RoundVectors F P) :
    Except Trap (RoundVectors F P) := do
  let a ← foldScalarsTrapping u v half low.a high.a
  let b ← foldScalarsTrapping v u half low.b high.b
  let G ← foldPointsTrapping x v u half low.G high.G
  let H ← foldPointsTrapping y u v half low.H high.H
  pure ⟨G, H, a, b⟩

omit [Field F] in
theorem crossTrapping_eq {n : ℕ} (hn : n < 2 ^ 62) (Q : P) {as bs : List F} (c : F) {G H : List P}
    (ha : as.length = n) (hb : bs.length = n) (hG : G.length = n) (hH : H.length = n) :
    crossTrapping Q (.ofList as) (.ofList bs) c G H = .ok (combine (as ++ bs ++ [c]) (G ++ H ++ [Q])) := by
  have hscalars : (as ++ bs ++ [c]).length = n + n + 1 := by
    rw [List.length_append, List.length_append, ha, hb, List.length_singleton]
  have hpoints : (G ++ H ++ [Q]).length = n + n + 1 := by
    rw [List.length_append, List.length_append, hG, hH, List.length_singleton]
  have hs : Iter.chained (.ofList as) [.ofList bs, .once c] = .ofList (as ++ bs ++ [c]) :=
    Iter.chained_ofList [_, _] (hscalars.trans_lt (by omega))
  have hp : Iter.chained (.ofList G) [.ofList H, .once Q] = .ofList (G ++ H ++ [Q]) :=
    Iter.chained_ofList [_, _] (hpoints.trans_lt (by omega))
  rw [crossTrapping, hs, hp, Iter.multiscalar_ofList (hscalars.trans hpoints.symm)]

section Round
variable {v : Argument F P} {half : ℕ} {x y : Option (List F)}

theorem crossPoints_eq (h : v.HasLength (half + half)) (hhalf : half < 2 ^ 62)
    (hx : factorsD x (half + half) = v.x) (hy : factorsD y (half + half) = v.y) (Q : P) :
    crossPoints Q x y half (v.lower half).vectors (v.upper half).vectors =
      .ok ((v.lower half).cross Q (v.upper half), (v.upper half).cross Q (v.lower half)) := by
  have hlow := h.lower (Nat.le_add_left half half)
  have hhigh := h.upper
  have hstop : mul 2 half = .ok (half + half) := by rw [mul_eq (by omega), two_mul]
  have haLow : scaled x half (half + half) (v.lower half).a =
      .ok (.ofList (List.zipWith (· * ·) (v.lower half).a (v.upper half).x)) := scaled_upper hx h.x hlow.a
  have hbHigh : scaled y 0 half (v.upper half).b =
      .ok (.ofList (List.zipWith (· * ·) (v.upper half).b (v.lower half).y)) := scaled_lower hy h.y hhigh.b
  have haHigh : scaled x 0 half (v.upper half).a =
      .ok (.ofList (List.zipWith (· * ·) (v.upper half).a (v.lower half).x)) := scaled_lower hx h.x hhigh.a
  have hbLow : scaled y half (half + half) (v.lower half).b =
      .ok (.ofList (List.zipWith (· * ·) (v.lower half).b (v.upper half).y)) := scaled_upper hy h.y hlow.b
  have hweighed : ∀ {as fs : List F}, as.length = half → fs.length = half →
      (List.zipWith (· * ·) as fs).length = half := fun ha hf => by
    rw [List.length_zipWith, ha, hf, Nat.min_self]
  have hL := crossTrapping_eq hhalf Q (innerProduct (v.lower half).a (v.upper half).b)
    (hweighed hlow.a hhigh.x) (hweighed hhigh.b hlow.y) hhigh.G hlow.H
  have hR := crossTrapping_eq hhalf Q (innerProduct (v.upper half).a (v.lower half).b)
    (hweighed hhigh.a hlow.x) (hweighed hlow.b hhigh.y) hlow.G hhigh.H
  simp only [crossPoints, Argument.vectors, hstop, haLow, hbHigh, haHigh, hbLow, hL, hR, bind, Except.bind]
  rfl

theorem foldScalarsTrapping_eq {low high : List F} (hlow : low.length = half) (hhigh : high.length = half)
    (s t : F) : foldScalarsTrapping s t half low high = .ok (Argument.foldScalars s t low high) := by
  have hlength : (Argument.foldScalars s t low high).length = half := by
    simp [Argument.foldScalars, hlow, hhigh]
  refine mapM_range_eq_ok hlength fun i hi => ?_
  have hl : entry low i = .ok low[i] := entry_eq (by omega)
  have hr : entry high i = .ok high[i] := entry_eq (by omega)
  simp only [hl, hr, bind, Except.bind, Argument.foldScalars, List.getElem_zipWith]
  rfl

theorem foldPointsTrapping_eq {factors : Option (List F)} {fs : List F} (hhalf : half < 2 ^ 62)
    (hfactors : factorsD factors (half + half) = fs) (hfs : fs.length = half + half) {low high : List P}
    (hlow : low.length = half) (hhigh : high.length = half) (s t : F) :
    foldPointsTrapping factors s t half low high =
      .ok (Argument.foldPoints s t (fs.take half) (fs.drop half) low high) := by
  have hlength : (Argument.foldPoints s t (fs.take half) (fs.drop half) low high).length = half := by
    simp [Argument.foldPoints, hlow, hhigh, hfs]
  refine mapM_range_eq_ok hlength fun i hi => ?_
  have hin : half + i < fs.length := by omega
  have hs : weighed factors 0 i s = .ok (s * fs[0 + i]) :=
    weighed_eq (by omega) hfactors hfs (by omega) s
  have ht : weighed factors half i t = .ok (t * fs[half + i]) := weighed_eq (by omega) hfactors hfs hin t
  have hl : entry low i = .ok low[i] := entry_eq (by omega)
  have hr : entry high i = .ok high[i] := entry_eq (by omega)
  simp only [hs, ht, hl, hr, bind, Except.bind, Argument.foldPoints, List.getElem_zipWith, List.getElem_zip,
    List.getElem_take, List.getElem_drop, Nat.zero_add]
  exact Iter.multiscalar_ofList rfl

theorem foldTrapping_eq (h : v.HasLength (half + half)) (hhalf : half < 2 ^ 62)
    (hx : factorsD x (half + half) = v.x) (hy : factorsD y (half + half) = v.y) (s t : F) :
    foldTrapping x y half s t (v.lower half).vectors (v.upper half).vectors =
      .ok ((v.lower half).fold s t (v.upper half)).vectors := by
  have hlow := h.lower (Nat.le_add_left half half)
  have hhigh := h.upper
  simp only [foldTrapping, Argument.vectors, foldScalarsTrapping_eq hlow.a hhigh.a,
    foldScalarsTrapping_eq hlow.b hhigh.b, foldPointsTrapping_eq hhalf hx h.x hlow.G hhigh.G,
    foldPointsTrapping_eq hhalf hy h.y hlow.H hhigh.H, bind, Except.bind]
  rfl

end Round

end RoundVectors

/-! ### All rounds -/

namespace InnerProductProof
variable {F P T ε : Type} [Field F] [MultiScalar F P] [ScalarEncoding F] [PointEncoding P] [Transcript T]

/-- The rounds of the argument on vectors of length `2ᵏ`, with factors in the first round. -/
def roundsTrapping (Q : P) : (k : ℕ) → (x y : Option (List F)) → RoundVectors F P →
    Trapping T ε (InnerProductProof F P)
  | 0, _, _, v => do
    let a ← step (entry v.a 0)
    let b ← step (entry v.b 0)
    pure ⟨[], [], a, b⟩
  | k + 1, x, y, v => do
    let half := 2 ^ k
    let (low, high) ← step (v.halves half)
    let (L, R) ← step (RoundVectors.crossPoints Q x y half low high)
    act (absorbPoint "L" L)
    act (absorbPoint "R" R)
    let u ← act (challenge "u")
    let folded ← step (RoundVectors.foldTrapping x y half u u⁻¹ low high)
    let rest ← roundsTrapping Q k none none folded
    pure ⟨L :: rest.L, R :: rest.R, rest.a, rest.b⟩

/-- Proves an argument; vectors of unequal lengths or of a length that is no power of two are refused before
anything is taken in. -/
def createTrapping (Q : P) (v : Argument F P) : Trapping T RangeProofError (InnerProductProof F P) := do
  let n := v.G.length
  unless v.isBalanced && isPowerOfTwo n do throw (.invalidInnerProductInput n)
  act (absorbInnerProduct (T := T) n)
  let size ← step (roundUp n)
  roundsTrapping Q size.log2 (some v.x) (some v.y) v.vectors

theorem roundsTrapping_eq (Q : P) {k : ℕ} (hk : k ≤ 62) {v : Argument F P} (h : v.HasLength (2 ^ k))
    {x y : Option (List F)} (hx : RoundVectors.factorsD x (2 ^ k) = v.x)
    (hy : RoundVectors.factorsD y (2 ^ k) = v.y) :
    (roundsTrapping Q k x y v.vectors : Trapping T ε (InnerProductProof F P)) = act (rounds Q k v) := by
  induction k generalizing v x y with
  | zero =>
    obtain ⟨a, ha⟩ := List.length_eq_one_iff.mp h.a
    obtain ⟨b, hb⟩ := List.length_eq_one_iff.mp h.b
    rw [roundsTrapping, rounds, Argument.vectors, ha, hb, act_pure]
    rfl
  | succ k ih =>
    have hhalf : 2 ^ k < 2 ^ 62 := Nat.pow_lt_pow_right (Nat.lt_succ_self 1) hk
    rw [pow_succ, mul_two] at h hx hy
    have hhalves := RoundVectors.halves_eq h
    have hcross := RoundVectors.crossPoints_eq h hhalf hx hy Q
    have hfold : ∀ u : F, _ := fun u => RoundVectors.foldTrapping_eq h hhalf hx hy u u⁻¹
    simp only [roundsTrapping, rounds, hhalves, hcross, hfold, step_ok, pure_bind, act_bind, act_pure,
      Nat.one_shiftLeft]
    refine bind_congr fun _ => bind_congr fun _ => bind_congr fun u => ?_
    -- behind the first round there are no factors, which the fold has as ones
    have hones : ∀ xs : List F, xs.length = 2 ^ k →
        RoundVectors.factorsD none (2 ^ k) = xs.map fun _ => (1 : F) := by
      intro xs hxs
      rw [List.map_const', hxs]
      rfl
    have hlow := h.lower (Nat.le_add_left (2 ^ k) (2 ^ k))
    have hnext := ih (Nat.le_of_succ_le hk) (hlow.fold h.upper u u⁻¹) (hones _ hlow.x) (hones _ hlow.y)
    rw [hnext]

theorem createTrapping_eq (Q : P) {v : Argument F P} (hv : v.G.length < 2 ^ 63) :
    (createTrapping Q v : Trapping T RangeProofError (InnerProductProof F P)) = safe (create Q v) := by
  unfold createTrapping create
  by_cases hgood : (v.isBalanced && isPowerOfTwo v.G.length) = true
  · rw [if_pos hgood, if_pos hgood]
    rw [Bool.and_eq_true, isPowerOfTwo_iff] at hgood
    obtain ⟨hbalanced, hpow⟩ := hgood
    have hlength := (Argument.isBalanced_iff hpow).mp hbalanced
    have hlog : v.G.length.log2 ≤ 62 := by
      by_contra hlarge
      have hword : 2 ^ 63 ≤ 2 ^ v.G.length.log2 := Nat.pow_le_pow_right (Nat.succ_pos 1) (by omega)
      omega
    have hsize : nextPowerOfTwo v.G.length = v.G.length := by
      rw [nextPowerOfTwo_eq]
      conv_lhs => rw [hpow, Nat.clog_pow _ _ Nat.one_lt_two]
      exact hpow.symm
    have hround : roundUp v.G.length = .ok v.G.length := by
      rw [roundUp_eq (by omega), hsize]
    have hrounds : (roundsTrapping Q v.G.length.log2 (some v.x) (some v.y) v.vectors :
        Trapping T RangeProofError (InnerProductProof F P)) = act (rounds Q v.G.length.log2 v) :=
      roundsTrapping_eq Q hlog hlength rfl rfl
    simp only [hround, step_ok, pure_bind, hrounds, safe_bind]
    rfl
  · rw [if_neg hgood, if_neg hgood]
    rfl

end InnerProductProof
end ConfidentialTx
