import ConfidentialTx.Proofs.Blame
import ConfidentialTx.Proofs.Draws

/-! # Parties that follow the protocol

A dealer blames a party for a share of a wrong size, or for one that does not pass its audit.  A party
that follows the protocol is blamed for neither, whatever the other parties send and however they sway
the challenges.

* `PartyBlindings.IsDrawn`: the blinding factors that a party can draw.
* `Party.play`: all that a party sends, and `Party.play_eq_ok_iff`: when it is not refused.
* `Dealer.WithPolys.passes_of_play`, `Dealer.WithPolys.fits_of_play`: the share of such a party passes its
  audit and has the size that the dealer asks for.
* `Dealer.WithPolys.honest_never_blamed`: so no error of a dealer whose `y` is not zero names it. -/

namespace ConfidentialTx

/-! ### The draws of a party -/

section Draws
variable {F : Type} [ScalarEncoding F]

namespace BitBlindings

theorem length_draw (n : ℕ) (source : RandomSource) :
    ((draw (F := F) n).run source).1.sL.length = n ∧ ((draw (F := F) n).run source).1.sR.length = n :=
  ⟨RandomSource.length_times _ n _, RandomSource.length_times _ n _⟩

theorem exists_draw [LawfulScalarEncoding F] {n : ℕ} {drawn : BitBlindings F}
    (hL : drawn.sL.length = n) (hR : drawn.sR.length = n) :
    ∃ source, ((draw n).run source).1 = drawn := by
  obtain ⟨source, hsource⟩ :=
    RandomSource.exists_supplies (drawn.a :: drawn.s :: (drawn.sL ++ (drawn.sR ++ [])))
  obtain ⟨source₁, ha, hsource⟩ := RandomSource.scalar_of_supplies hsource
  obtain ⟨source₂, hs, hsource⟩ := RandomSource.scalar_of_supplies hsource
  obtain ⟨source₃, hsL, hsource⟩ := RandomSource.scalars_of_supplies hsource
  obtain ⟨source₄, hsR, -⟩ := RandomSource.scalars_of_supplies hsource
  rw [hL] at hsL
  rw [hR] at hsR
  refine ⟨source, ?_⟩
  rw [draw, run_bind_of_eq ha, run_bind_of_eq hs, run_bind_of_eq hsL, run_bind_of_eq hsR]
  rfl

end BitBlindings

theorem PolyBlindings.exists_draw [LawfulScalarEncoding F] (drawn : PolyBlindings F) :
    ∃ source, (draw.run source).1 = drawn := by
  obtain ⟨source, h₁, h₂, -⟩ := RandomSource.exists_supplies [drawn.t₁, drawn.t₂]
  exact ⟨source, congrArg₂ PolyBlindings.mk h₁ h₂⟩

namespace PartyBlindings

/-- Whether a party of `n` bits can draw the blinding factors, from some source in each of its two
rounds. -/
def IsDrawn (n : ℕ) (drawn : PartyBlindings F) : Prop :=
  ∃ source source' : RandomSource,
    drawn = ⟨((BitBlindings.draw n).run source).1, (PolyBlindings.draw.run source').1⟩

theorem IsDrawn.lengths {n : ℕ} {drawn : PartyBlindings F} (h : drawn.IsDrawn n) :
    drawn.bits.sL.length = n ∧ drawn.bits.sR.length = n := by
  obtain ⟨source, source', rfl⟩ := h
  exact BitBlindings.length_draw n source

/-- Every scalar can be drawn, so that only the lengths matter. -/
theorem IsDrawn.of_lengths [LawfulScalarEncoding F] {n : ℕ} {drawn : PartyBlindings F}
    (hL : drawn.bits.sL.length = n) (hR : drawn.bits.sR.length = n) : drawn.IsDrawn n := by
  obtain ⟨source, hbits⟩ := BitBlindings.exists_draw hL hR
  obtain ⟨source', hpolys⟩ := PolyBlindings.exists_draw drawn.polys
  exact ⟨source, source', by rw [hbits, hpolys]⟩

end PartyBlindings
end Draws

/-! ### The messages of a party -/

/-- All that a party sends. -/
structure PartyMessages (F P : Type) where
  bits : BitCommitment P
  polys : PolyCommitment P
  share : ProofShare F

namespace Party
variable {F P : Type} [Field F] [MultiScalar F P] [BEq F]

/-- The messages of a party that proves that `value` lies in `[0, 2ⁿ)` at position `j`, with the given
blinding factors and under the given challenges.  The first message does not depend on the challenges,
and the second one not on `x`. -/
def play (gens : Generators P) (key : CommitmentKey P) (value : UInt64) (blinding : F) (n j : ℕ)
    (drawn : PartyBlindings F) (ch : BitChallenge F) (x : F) :
    Except RangeProofError (PartyMessages F P) := do
  let party ← create gens key value blinding n
  checkPosition gens j
  let (committed, bits) := party.commitBits gens key j drawn.bits
  let (answering, polys) := committed.commitPolys key ch drawn.polys
  let share ← answering.share x
  pure ⟨bits, polys, share⟩

variable {gens : Generators P} {key : CommitmentKey P} {value : UInt64} {blinding : F} {n j : ℕ}
variable {drawn : PartyBlindings F} {ch : BitChallenge F} {x : F} {messages : PartyMessages F P}

theorem play_eq_ok_iff :
    play gens key value blinding n j drawn ch x = .ok messages ↔
      ∃ party, create gens key value blinding n = .ok party ∧ j < gens.parties ∧
        (party.commitBits gens key j drawn.bits).2 = messages.bits ∧
        ((party.commitBits gens key j drawn.bits).1.commitPolys key ch drawn.polys).2 =
          messages.polys ∧
        ((party.commitBits gens key j drawn.bits).1.commitPolys key ch drawn.polys).1.share x =
          .ok messages.share := by
  rw [play, bind_eq_ok]
  refine exists_congr fun party => and_congr_right fun _ => ?_
  rw [bind_eq_ok]
  constructor
  · rintro ⟨⟨⟩, hposition, h⟩
    obtain ⟨share, hshare, h⟩ := bind_eq_ok.mp h
    obtain rfl := pure_eq_ok.mp h
    exact ⟨checkPosition_eq_ok_iff.mp hposition, rfl, rfl, hshare⟩
  · rintro ⟨hposition, hbits, hpolys, hshare⟩
    refine ⟨(), checkPosition_eq_ok_iff.mpr hposition, bind_eq_ok.mpr ⟨messages.share, hshare, ?_⟩⟩
    exact pure_eq_ok.mpr (congrArg₂ (PartyMessages.mk · · messages.share) hbits hpolys)

variable [LawfulBEq F]

/-- A party is refused nothing at a position of the table, for a value of the right size and under an
`x` other than zero. -/
theorem exists_play (hn : n = 8 ∨ n = 16 ∨ n = 32 ∨ n = 64) (hcap : n ≤ gens.capacity)
    (hj : j < gens.parties) (hvalue : value.toNat < 2 ^ n) (key : CommitmentKey P) (blinding : F)
    (drawn : PartyBlindings F) (ch : BitChallenge F) (hx : x ≠ 0) :
    ∃ messages, play gens key value blinding n j drawn ch x = .ok messages := by
  let party : Party F P := ⟨value, blinding, n, key.commit (value.toNat : F) blinding⟩
  obtain ⟨share, hshare⟩ : ∃ share, ((party.commitBits gens key j drawn.bits).1.commitPolys key ch
      drawn.polys).1.share x = .ok share :=
    ⟨_, Answering.share_eq_ok_iff.mpr ⟨hx, rfl⟩⟩
  exact ⟨⟨_, _, share⟩, play_eq_ok_iff.mpr
    ⟨party, create_eq_ok_iff.mpr ⟨hn, hcap, hvalue, rfl⟩, hj, rfl, rfl, hshare⟩⟩

end Party

/-! ### The dealer -/

namespace Dealer.WithPolys
variable {F P T : Type} [Field F] [BEq F] [LawfulBEq F] [AddCommGroup P] [Module F P] [MultiScalar F P]
variable [LawfulMultiScalar F P] [BEq P] [LawfulBEq P]
variable {dealer : WithPolys F P T} {gens : Generators P} {key : CommitmentKey P}
variable {value : UInt64} {blinding : F} {drawn : PartyBlindings F} {messages : PartyMessages F P} {j : ℕ}

section Share
variable (hdrawn : drawn.bits.sL.length = dealer.n ∧ drawn.bits.sR.length = dealer.n)
variable (hplay : Party.play gens key value blinding dealer.n j drawn dealer.bitChallenge
  dealer.polyChallenge = .ok messages)
variable (hy : dealer.bitChallenge.y ≠ 0)
include hdrawn hplay hy

omit [BEq P] [LawfulBEq P] in
theorem fits_of_play : messages.share.fits gens dealer.n j = true := by
  obtain ⟨party, hcreate, hj, -, -, hshare⟩ := Party.play_eq_ok_iff.mp hplay
  obtain ⟨-, hcap, -, -⟩ := Party.create_eq_ok_iff.mp hcreate
  have hagrees := Party.share_agrees hcreate hj hdrawn.1 hdrawn.2 hy hshare
  exact ProofShare.fits_iff.mpr ⟨hagrees.length_l, hagrees.length_r, hcap, hj⟩

theorem passes_of_play (hbits : dealer.bits[j]? = some messages.bits)
    (hpolys : dealer.polys[j]? = some messages.polys) : dealer.Passes gens key j messages.share := by
  obtain ⟨party, hcreate, hj, hbits', hpolys', hshare⟩ := Party.play_eq_ok_iff.mp hplay
  refine ⟨messages.bits, messages.polys, hbits, hpolys, ?_⟩
  rw [← hbits', ← hpolys']
  exact Party.audit_share hcreate hj hdrawn.1 hdrawn.2 hy hshare

end Share

variable [Transcript T] [ScalarEncoding F] [PointEncoding P]

/-- **Honest parties.**  A dealer takes in any messages and any shares and draws a `y` other than zero.
A party at a position `j` of the dealer that follows the protocol, for a value of the right size, with any
blinding factors that it can draw and under the dealer's own challenges, is refused nothing unless `x` is
zero.  If its messages and its share are those at position `j`, then no refusal of the dealer, neither
for the sizes of the shares nor for their audits, names `j`. -/
theorem honest_never_blamed {start : T} {n m : ℕ} {bits : List (BitCommitment P)}
    {polys : List (PolyCommitment P)} {created : Dealer T} {withBits : WithBits F P T}
    (hcreate : create gens start n m = .ok created) (hbits : created.receiveBits bits = .ok withBits)
    (hpolys : withBits.receivePolys polys = .ok dealer) (hy : withBits.bitChallenge.y ≠ 0)
    (hx : dealer.polyChallenge ≠ 0) (key : CommitmentKey P) (hj : j < m)
    (hvalue : value.toNat < 2 ^ n) (blinding : F) (hdrawn : drawn.IsDrawn n) :
    ∃ messages, Party.play gens key value blinding n j drawn withBits.bitChallenge
        dealer.polyChallenge = .ok messages ∧
      (bits[j]? = some messages.bits → polys[j]? = some messages.polys →
        ∀ shares : List (ProofShare F), shares[j]? = some messages.share → ∀ bad : List ℕ,
          (dealer.assemble gens key shares = .error (.malformedProofShares bad) → j ∉ bad) ∧
          ∀ source, ((dealer.receiveShares gens key shares).run source).1 =
            .error (.malformedProofShares bad) → j ∉ bad) := by
  obtain ⟨h, rfl, rfl, rfl, rfl, rfl, hch⟩ := isReached hcreate hbits hpolys
  rw [← hch] at hy ⊢
  obtain ⟨messages, hplay⟩ := Party.exists_play h.fit.bits h.fit.capacity (hj.trans_le h.fit.parties)
    hvalue key blinding drawn dealer.bitChallenge hx
  refine ⟨messages, hplay, fun hbits hpolys shares hshare bad => ?_⟩
  have hfits := fits_of_play hdrawn.lengths hplay hy
  have hpasses := passes_of_play hdrawn.lengths hplay hy hbits hpolys
  -- the position has one share, which is no cause for blame
  have hassemble : dealer.assemble gens key shares = .error (.malformedProofShares bad) → j ∉ bad := by
    intro herror hmem
    rcases assemble_refused h herror with hcount | ⟨-, hnames⟩
    · cases hcount
    obtain rfl := RangeProofError.malformedProofShares.inj hnames
    obtain ⟨share, hshare', hbad⟩ := mem_positions_iff.mp hmem
    obtain rfl := Option.some.inj (hshare.symm.trans hshare')
    simp [hfits] at hbad
  refine ⟨hassemble, fun source herror => ?_⟩
  rcases receiveShares_eq_error herror with hrefused | ⟨proof, t, -, -, hnames⟩
  · exact hassemble hrefused
  · obtain rfl := RangeProofError.malformedProofShares.inj hnames
    intro hmem
    obtain ⟨share, hshare', hfails⟩ := mem_failedAudits_iff.mp hmem
    obtain rfl := Option.some.inj (hshare.symm.trans hshare')
    exact hfails hpasses

/-! ### A party beside one that sends anything -/

/-- The blinding factors of the party at position 1. -/
def honestDraws : PartyBlindings Residue :=
  ⟨((BitBlindings.draw 8).run Residue.source).1, (PolyBlindings.draw.run Residue.source).1⟩

/-- The party at position 1, which proves 200. -/
def honestParty : Party Residue Residue :=
  ⟨200, 7, 8, Residue.key.commit ((200 : UInt64).toNat : Residue) 7⟩

/-- Its first message, and its state behind it. -/
def honestBits : Party.Committed Residue × BitCommitment Residue :=
  honestParty.commitBits (Residue.table 8 2) Residue.key 1 honestDraws.bits

/-- A dealer that takes in the messages of this party, and those of a party at position 0 that follows
nothing. -/
def besideRogue : Except RangeProofError (WithBits Residue Residue Residue.Transcript ×
    WithPolys Residue Residue Residue.Transcript) := do
  let created ← create (Residue.table 8 2) Residue.start 8 2
  let withBits ← created.receiveBits [⟨1000, 2, 3⟩, honestBits.2]
  let answer := honestBits.1.commitPolys Residue.key withBits.bitChallenge honestDraws.polys
  let dealer ← withBits.receivePolys [⟨11, 13⟩, answer.2]
  pure (withBits, dealer)

/-- The share of the party at position 0, which opens nothing. -/
def rogueShare : ProofShare Residue :=
  ⟨121, 24168, 37602, [1, 2, 3, 4, 5, 6, 7, 8], [8, 7, 6, 5, 4, 3, 2, 1]⟩

/-- The party at position 0 is blamed for its share and the party at position 1 is not. -/
theorem honest_never_blamed_beside_rogue :
    ∃ (withBits : WithBits Residue Residue Residue.Transcript)
      (dealer : WithPolys Residue Residue Residue.Transcript) (messages : PartyMessages Residue Residue)
      (bad : List ℕ),
      besideRogue = .ok (withBits, dealer) ∧
      Party.play (Residue.table 8 2) Residue.key 200 7 8 1 honestDraws withBits.bitChallenge
        dealer.polyChallenge = .ok messages ∧
      dealer.bits[1]? = some messages.bits ∧ dealer.polys[1]? = some messages.polys ∧
      ((dealer.receiveShares (Residue.table 8 2) Residue.key
        [rogueShare, messages.share]).run Residue.source).1 =
          .error (.malformedProofShares bad) ∧
      0 ∈ bad ∧ 1 ∉ bad := by
  have hrun : besideRogue.toOption.any (fun (withBits, dealer) =>
      withBits.bitChallenge.y != 0 && dealer.polyChallenge != 0 &&
        (Party.play (Residue.table 8 2) Residue.key 200 7 8 1 honestDraws withBits.bitChallenge
          dealer.polyChallenge).toOption.any fun messages =>
            match ((dealer.receiveShares (Residue.table 8 2) Residue.key
              [rogueShare, messages.share]).run Residue.source).1 with
            | .error (.malformedProofShares bad) => bad.contains 0
            | _ => false) = true := by
    decide +kernel
  obtain ⟨⟨withBits, dealer⟩, hrogue, hrun⟩ := any_toOption_iff.mp hrun
  simp only [Bool.and_eq_true, bne_iff_ne] at hrun
  obtain ⟨⟨hy, hx⟩, hrun⟩ := hrun
  obtain ⟨messages, hplay, hblamed⟩ := any_toOption_iff.mp hrun
  split at hblamed
  · next bad herror =>
    -- the three steps of the dealer
    obtain ⟨created, hcreate, hrest⟩ := bind_eq_ok.mp hrogue
    obtain ⟨withBits', hbits, hrest⟩ := bind_eq_ok.mp hrest
    obtain ⟨dealer', hpolys, hrest⟩ := bind_eq_ok.mp hrest
    obtain ⟨rfl, rfl⟩ := Prod.mk.inj (pure_eq_ok.mp hrest)
    obtain ⟨-, -, -, -, hbits_eq, hpolys_eq, -⟩ := isReached hcreate hbits hpolys
    obtain ⟨messages', hplay', hnever⟩ := honest_never_blamed (j := 1) hcreate hbits hpolys hy hx
      Residue.key (by decide) (show (200 : UInt64).toNat < 2 ^ 8 by decide) 7 ⟨_, _, rfl⟩
    obtain rfl := Except.ok.inj (hplay.symm.trans hplay')
    -- the messages of the party are those that the dealer took in
    obtain ⟨party, hparty, -, hbits', hpolys', -⟩ := Party.play_eq_ok_iff.mp hplay
    obtain rfl : honestParty = party := (Party.create_eq_ok_iff.mp hparty).2.2.2
    have hbits₁ := congrArg some hbits'
    have hpolys₁ := congrArg some hpolys'
    refine ⟨withBits', dealer', messages, bad, hrogue, hplay, ?_, ?_, herror, ?_, ?_⟩
    · rw [hbits_eq]; exact hbits₁
    · rw [hpolys_eq]; exact hpolys₁
    · exact List.mem_of_elem_eq_true hblamed
    · exact (hnever hbits₁ hpolys₁ [rogueShare, messages.share] rfl bad).2 _ herror
  · cases hblamed

end Dealer.WithPolys
end ConfidentialTx
