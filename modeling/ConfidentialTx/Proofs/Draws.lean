import ConfidentialTx.Proofs.Laws
import ConfidentialTx.Proofs.Runs
import ConfidentialTx.Range.Aggregate

/-! # Draws from a source

Repeated draws give as many answers as asked for, and what holds of every single draw holds of all
answers.  So the blinding factors that a party draws have the lengths that it needs, whatever its
source gives.

Every list of scalars is drawn from some source, a byte string repeated for ever
(`RandomSource.exists_supplies`): what is proved for all scalars is then a statement on all
sources. -/

namespace ConfidentialTx

namespace RandomSource
variable {α : Type}

theorem length_times (draw : StateM RandomSource α) (count : ℕ) (source : RandomSource) :
    ((times draw count).run source).1.length = count := by
  induction count generalizing source with
  | zero => rfl
  | succ count ih => exact congrArg (· + 1) (ih _)

theorem forall_mem_times {draw : StateM RandomSource α} {p : α → Prop}
    (h : ∀ source, p (draw.run source).1) (count : ℕ) (source : RandomSource) :
    ∀ x ∈ ((times draw count).run source).1, p x := by
  induction count generalizing source with
  | zero => exact List.forall_mem_nil p
  | succ count ih => exact List.forall_mem_cons.mpr ⟨h source, ih _⟩

/-! ### Sources for given scalars -/

section Supplies
variable {F : Type} [ScalarEncoding F]

/-- Whether the next draws of a source give the scalars of a list. -/
def Supplies : RandomSource → List F → Prop
  | _, [] => True
  | source, s :: ss => ((scalar (F := F)).run source).1 = s ∧ Supplies ((scalar (F := F)).run source).2 ss

theorem read_cycle {period : Bytes} {start count : ℕ} (hcount : 0 < count)
    (h : start + count ≤ period.length) :
    (cycle period).read start count = (period.drop start).take count := by
  have hstart : start % period.length = start := Nat.mod_eq_of_lt (by omega)
  have hdrop : (period.drop start).length = period.length - start := List.length_drop
  unfold cycle Bytes.slice
  simp only
  rw [hstart, List.replicate_succ, List.flatten_cons, List.drop_append_of_le_length (by omega),
    List.take_append_of_le_length (by omega)]

/-- A cycle of blocks supplies what is behind its position. -/
theorem supplies_cycle {block : F → Bytes} (hlen : ∀ s, (block s).length = 64)
    (hblock : ∀ s, ScalarEncoding.ofBytes (block s) = s) (before after : List F) :
    Supplies ⟨(cycle ((before ++ after).flatMap block)).read, 64 * before.length⟩ after := by
  have hlength : ∀ ss : List F, (ss.flatMap block).length = 64 * ss.length := by
    intro ss
    rw [List.length_flatMap, List.map_congr_left fun s _ => hlen s, List.map_const',
      List.sum_replicate, smul_eq_mul, Nat.mul_comm]
  induction after generalizing before with
  | nil => exact trivial
  | cons s after ih =>
    have hread : (cycle ((before ++ s :: after).flatMap block)).read (64 * before.length) 64 =
        block s := by
      have hfits : 64 * before.length + 64 ≤ ((before ++ s :: after).flatMap block).length := by
        rw [hlength, List.length_append, List.length_cons]
        omega
      rw [read_cycle (by omega) hfits, List.flatMap_append, List.flatMap_cons,
        List.drop_left' (hlength before), List.take_left' (hlen s)]
    refine ⟨?_, ?_⟩
    · exact (congrArg ScalarEncoding.ofBytes hread).trans (hblock s)
    · have hrest := ih (before ++ [s])
      rw [List.append_assoc, List.singleton_append, List.length_append, List.length_singleton,
        Nat.mul_add] at hrest
      exact hrest

theorem exists_supplies [LawfulScalarEncoding F] (ss : List F) : ∃ source, Supplies source ss := by
  choose block hlen hblock using LawfulScalarEncoding.exists_ofBytes (F := F)
  exact ⟨_, supplies_cycle hlen hblock [] ss⟩

variable {source : RandomSource} {ss : List F}

theorem times_of_supplies {draw : StateM RandomSource α} {f : α → List F}
    (hdraw : ∀ {source : RandomSource} {a ss}, source.Supplies (f a ++ ss) →
      ∃ source' : RandomSource, draw.run source = (a, source') ∧ source'.Supplies ss)
    {as : List α} (h : source.Supplies (as.flatMap f ++ ss)) :
    ∃ source' : RandomSource, (times draw as.length).run source = (as, source') ∧
      source'.Supplies ss := by
  induction as generalizing source with
  | nil => exact ⟨source, rfl, h⟩
  | cons a as ih =>
    rw [List.flatMap_cons, List.append_assoc] at h
    obtain ⟨source₁, hrun, h⟩ := hdraw h
    obtain ⟨source₂, htimes, h⟩ := ih h
    refine ⟨source₂, ?_, h⟩
    rw [List.length_cons, times, run_bind_of_eq hrun, run_bind_of_eq htimes]
    rfl

theorem scalar_of_supplies {s : F} (h : source.Supplies (s :: ss)) :
    ∃ source' : RandomSource, scalar.run source = (s, source') ∧ source'.Supplies ss :=
  ⟨_, Prod.ext h.1 rfl, h.2⟩

theorem scalars_of_supplies {rs : List F} (h : source.Supplies (rs ++ ss)) :
    ∃ source' : RandomSource, (scalars rs.length).run source = (rs, source') ∧
      source'.Supplies ss := by
  refine times_of_supplies (f := fun s => [s]) (fun h => scalar_of_supplies h) ?_
  rwa [List.flatMap_singleton']

end Supplies
end RandomSource

theorem PartyBlindings.length_drawSeeded {F : Type} [ScalarEncoding F] (n : ℕ)
    (source : RandomSource) :
    ((drawSeeded (F := F) n).run source).1.bits.sL.length = n ∧
      ((drawSeeded (F := F) n).run source).1.bits.sR.length = n :=
  ⟨RandomSource.length_times _ n _, RandomSource.length_times _ n _⟩

end ConfidentialTx
