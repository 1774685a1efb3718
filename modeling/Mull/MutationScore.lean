import Mull.Lib.Binary64
import Mull.Reporters

/-!
# The mutation score

The reporters divide the number of killed mutants by the number of mutants as `double`s,
multiply by 100 and drop what is behind the point.  Both operations round, and the percentage
is the exact one, rounded down, with three exceptions (`score_eq`): where exactly 29, 57 or 58
percent are killed, the product is just below the integer.

The rounding is monotone, so the score never falls when more mutants are killed, and it is
100 only when none survived (`score_eq_hundred_iff`).
-/

namespace Mull.MutationScore

open Mutators MutationPoints Driver Reporters

/-! ### The reporters -/

/-- A `size_t` as a `double`. -/
def double (size : Nat) : Float := (UInt64.ofNat size).toFloat

def rawScore (killed mutants : Nat) : Float := double killed / double mutants

/-- `uint(rawScore * 100)`, in both reporters. -/
def percent (killed mutants : Nat) : Nat := (rawScore killed mutants * double 100).toUInt32.toNat

def score (points : List MutationPoint) (results : List MutationResult) : Nat :=
  percent (killedMutants results).card points.length

namespace IDEReporter

/-- `reportResults` to its end. -/
def reportResults (showKilled : Bool) (points : List MutationPoint) (results : List MutationResult) :
    List Output :=
  if points = [] then Reporters.IDEReporter.reportResults showKilled points results
  else Reporters.IDEReporter.reportResults showKilled points results ++
    [.info ("Mutation score: " ++ toString (score points results) ++ "%")]

end IDEReporter

namespace MutationTestingElementsReporter

/-- The value of `mutationScore` in the report, which is written only when there are mutants. -/
def mutationScore (points : List MutationPoint) (results : List MutationResult) : Option Int :=
  if points = [] then none else some (score points results)

end MutationTestingElementsReporter

/-! ### Two roundings -/

/-- What is converted to an integer. -/
def product (killed mutants : Nat) : ℚ := Binary64.rounded (Binary64.rounded (killed / mutants) * 100)

theorem holds_double {size : Nat} (hpos : 0 < size) (hlt : size < 2 ^ 53) :
    Binary64.Holds (double size) size := by
  have hsize : (UInt64.ofNat size).toNat = size := by
    rw [UInt64.toNat_ofNat']
    exact Nat.mod_eq_of_lt (by omega)
  have hholds := @Binary64.holds_toFloat (UInt64.ofNat size) (by omega) (by omega)
  rw [hsize] at hholds
  exact hholds

section Percent

variable {killed mutants : Nat} (hpos : 0 < killed) (hle : killed ≤ mutants)
  (hmutants : mutants ≤ 2 ^ 45)
include hpos hle hmutants

theorem quotient_bounds : (2 : ℚ) ^ (-45 : ℤ) ≤ killed / mutants ∧ (killed / mutants : ℚ) ≤ 1 := by
  have hpos' : (0 : ℚ) < mutants := by exact_mod_cast hpos.trans_le hle
  rw [div_le_one hpos', le_div_iff₀ hpos']
  constructor
  · have hone : (1 : ℚ) ≤ killed := by exact_mod_cast hpos
    have hbound : (mutants : ℚ) ≤ 2 ^ 45 := by exact_mod_cast hmutants
    calc (2 : ℚ) ^ (-45 : ℤ) * mutants ≤ 2 ^ (-45 : ℤ) * 2 ^ 45 :=
          mul_le_mul_of_nonneg_left hbound (Binary64.two_zpow_pos _).le
      _ = 1 := by norm_num
      _ ≤ killed := hone
  · exact_mod_cast hle

theorem rounded_quotient_bounds :
    (2 : ℚ) ^ (-46 : ℤ) ≤ Binary64.rounded (killed / mutants) ∧
      Binary64.rounded (killed / mutants) ≤ 1 := by
  obtain ⟨hlower, hupper⟩ := quotient_bounds hpos hle hmutants
  have hquotient : (0 : ℚ) < killed / mutants := (Binary64.two_zpow_pos _).trans_le hlower
  constructor
  · have hrounded := Binary64.le_rounded hquotient
    have hhalf : (2 : ℚ) ^ (-45 : ℤ) = 2 * 2 ^ (-46 : ℤ) := by norm_num
    have hsmall : (killed / mutants : ℚ) / 2 ^ 53 ≤ killed / mutants / 2 :=
      div_le_div_of_nonneg_left hquotient.le two_pos (by norm_num)
    linarith
  · have hone := @Binary64.rounded_natCast 1 (by norm_num)
    rw [Nat.cast_one] at hone
    exact (Binary64.rounded_mono hquotient hupper).trans_eq hone

theorem product_le : product killed mutants ≤ 100 := by
  obtain ⟨hlower, hupper⟩ := rounded_quotient_bounds hpos hle hmutants
  have hquotient := (Binary64.two_zpow_pos (-46)).trans_le hlower
  have hhundred := @Binary64.rounded_natCast 100 (by norm_num)
  push_cast at hhundred
  refine (Binary64.rounded_mono (mul_pos hquotient (by norm_num)) ?_).trans_eq hhundred
  linarith

/-- Nothing but the two roundings happens to the quotient. -/
theorem percent_eq_floor : percent killed mutants = ⌊product killed mutants⌋₊ := by
  obtain ⟨hlower, hupper⟩ := quotient_bounds hpos hle hmutants
  obtain ⟨hlower', hupper'⟩ := rounded_quotient_bounds hpos hle hmutants
  have hkilled := @holds_double killed hpos (by omega)
  have hmutants' := @holds_double mutants (by omega) (by omega)
  have hhundred := @holds_double 100 (by omega) (by omega)
  have hquotient : Binary64.Moderate (killed / mutants) :=
    ⟨(zpow_le_zpow_right₀ one_le_two (by omega)).trans hlower,
      hupper.trans_lt (one_lt_zpow₀ one_lt_two (by omega))⟩
  have hproduct : Binary64.Moderate (Binary64.rounded (killed / mutants) * (100 : ℕ)) := by
    constructor
    · calc (2 : ℚ) ^ (-900 : ℤ) ≤ 2 ^ (-46 : ℤ) := zpow_le_zpow_right₀ one_le_two (by omega)
        _ ≤ Binary64.rounded (killed / mutants) := hlower'
        _ ≤ Binary64.rounded (killed / mutants) * (100 : ℕ) := by
            push_cast
            linarith [(Binary64.two_zpow_pos (-46)).trans_le hlower']
    · calc Binary64.rounded (killed / mutants) * (100 : ℕ) ≤ 1 * 100 := by
            push_cast
            linarith
        _ < 2 ^ (7 : ℤ) := by norm_num
        _ ≤ 2 ^ (900 : ℤ) := zpow_le_zpow_right₀ one_le_two (by omega)
  have hholds := (hkilled.div hmutants' hquotient).mul hhundred hproduct
  push_cast at hholds
  exact hholds.toUInt32 ((product_le hpos hle hmutants).trans_lt (by norm_num))

/-- Where the percentage is no integer, it is too far from one for the rounding errors. -/
theorem floor_product (hdvd : ¬ mutants ∣ 100 * killed) :
    ⌊product killed mutants⌋₊ = 100 * killed / mutants := by
  obtain ⟨hlower, hupper⟩ := quotient_bounds hpos hle hmutants
  obtain ⟨hlower', hupper'⟩ := rounded_quotient_bounds hpos hle hmutants
  have hquotient : (0 : ℚ) < killed / mutants := (Binary64.two_zpow_pos _).trans_le hlower
  have hrounded := (Binary64.two_zpow_pos (-46)).trans_le hlower'
  have hmutants' : (0 : ℚ) < mutants := by exact_mod_cast hpos.trans_le hle
  have hdiv := Nat.div_add_mod (100 * killed) mutants
  have hmod : 1 ≤ 100 * killed % mutants := Nat.one_le_iff_ne_zero.mpr fun h =>
    hdvd (Nat.dvd_of_mod_eq_zero h)
  have hmod' : 100 * killed % mutants + 1 ≤ mutants := Nat.mod_lt _ (by omega)
  have hpercent : 100 * killed / mutants ≤ 100 :=
    Nat.div_le_of_le_mul (by rw [Nat.mul_comm mutants]; exact Nat.mul_le_mul_left 100 hle)
  generalize 100 * killed / mutants = f at hdiv hpercent
  generalize 100 * killed % mutants = s at hdiv hmod hmod'
  have hgap : 1 / (2 : ℚ) ^ 45 ≤ 1 / mutants :=
    one_div_le_one_div_of_le hmutants' (by exact_mod_cast hmutants)
  have hexact : (100 * (killed / mutants) : ℚ) = f + s / mutants := by
    field_simp
    exact_mod_cast hdiv.symm
  have hs : 1 / (mutants : ℚ) ≤ s / mutants :=
    div_le_div_of_nonneg_right (by exact_mod_cast hmod) hmutants'.le
  have hs' : (s / mutants : ℚ) + 1 / mutants ≤ 1 := by
    rw [← add_div, div_le_one hmutants']
    exact_mod_cast hmod'
  have hbelow := Binary64.le_rounded hquotient
  have habove := Binary64.rounded_le hquotient
  have habove' := Binary64.rounded_le (mul_pos hrounded (show (0 : ℚ) < 100 by norm_num))
  have hproduct := Binary64.rounded_pos (mul_pos hrounded (show (0 : ℚ) < 100 by norm_num))
  refine (Nat.floor_eq_iff hproduct.le).mpr ⟨?_, ?_⟩
  · rcases Nat.eq_zero_or_pos f with rfl | hf
    · rw [Nat.cast_zero]
      exact hproduct.le
    · have hmono : (f : ℚ) ≤ Binary64.rounded (killed / mutants) * 100 := by
        linarith
      calc (f : ℚ) = Binary64.rounded f := (Binary64.rounded_natCast (by omega)).symm
        _ ≤ product killed mutants := Binary64.rounded_mono (by exact_mod_cast hf) hmono
  · calc product killed mutants ≤ _ := habove'
      _ < f + 1 := by linarith

end Percent

/-- The percentages of which the product is just below. -/
def roundedDown : List Nat := [29, 57, 58]

theorem percent_hundredths : ∀ percentage ≤ 100, percent percentage 100 =
    if percentage ∈ roundedDown then percentage - 1 else percentage := by
  decide +kernel

theorem percent_zero {mutants : Nat} (hpos : 0 < mutants) (hlt : mutants < 2 ^ 53) :
    percent 0 mutants = 0 := by
  have hmutants := holds_double hpos hlt
  have hhundred := @holds_double 100 (by omega) (by omega)
  have hzero : double 0 = (0 : UInt64).toFloat := rfl
  rw [percent, rawScore, hzero, Binary64.toFloat_zero_div hmutants, Binary64.toFloat_zero_mul hhundred]
  rfl

/-- What is rounded are quotients, so a percentage that is an integer may be taken of 100 mutants. -/
theorem percent_of_dvd {killed mutants : Nat} (hpos : 0 < mutants) (hle : killed ≤ mutants)
    (hmutants : mutants ≤ 2 ^ 45) (hdvd : mutants ∣ 100 * killed) :
    percent killed mutants = percent (100 * killed / mutants) 100 := by
  obtain ⟨percentage, hpercentage⟩ := hdvd
  rw [hpercentage, Nat.mul_div_cancel_left _ hpos]
  rcases Nat.eq_zero_or_pos killed with rfl | hkilled
  · obtain rfl : percentage = 0 := by
      rcases Nat.mul_eq_zero.mp hpercentage.symm with hzero | hzero
      · exact absurd hzero hpos.ne'
      · exact hzero
    rw [percent_zero hpos (by omega), percent_zero (by omega) (by omega)]
  · have hpercentage₀ : 0 < percentage := Nat.pos_of_ne_zero fun hzero => by
      rw [hzero] at hpercentage
      omega
    have hle' : percentage ≤ 100 := by
      refine Nat.le_of_mul_le_mul_left ?_ hpos
      rw [← hpercentage, Nat.mul_comm mutants]
      exact Nat.mul_le_mul_left 100 hle
    have hquotient : (killed / mutants : ℚ) = percentage / (100 : ℕ) := by
      have hpos' : (mutants : ℚ) ≠ 0 := by exact_mod_cast hpos.ne'
      rw [div_eq_div_iff hpos' (by norm_num)]
      exact_mod_cast (by linarith : killed * 100 = percentage * mutants)
    rw [percent_eq_floor hkilled hle hmutants, percent_eq_floor hpercentage₀ hle' (by omega), product,
      product, hquotient]

theorem percent_eq {killed mutants : Nat} (hpos : 0 < mutants) (hle : killed ≤ mutants)
    (hmutants : mutants ≤ 2 ^ 45) :
    percent killed mutants =
      if mutants ∣ 100 * killed ∧ 100 * killed / mutants ∈ roundedDown then
        100 * killed / mutants - 1
      else 100 * killed / mutants := by
  by_cases hdvd : mutants ∣ 100 * killed
  · have hle' : 100 * killed / mutants ≤ 100 :=
      Nat.div_le_of_le_mul (by rw [Nat.mul_comm mutants]; exact Nat.mul_le_mul_left 100 hle)
    rw [percent_of_dvd hpos hle hmutants hdvd, percent_hundredths _ hle']
    simp only [hdvd, true_and]
  · have hkilled : 0 < killed := Nat.pos_of_ne_zero fun hzero => hdvd (by rw [hzero]; exact dvd_zero _)
    rw [if_neg fun h => hdvd h.1, percent_eq_floor hkilled hle hmutants,
      floor_product hkilled hle hmutants hdvd]

/-- More killed mutants never make it less. -/
theorem percent_mono {killed killed' mutants : Nat} (h : killed ≤ killed') (hle : killed' ≤ mutants)
    (hpos : 0 < mutants) (hmutants : mutants ≤ 2 ^ 45) :
    percent killed mutants ≤ percent killed' mutants := by
  rcases Nat.eq_zero_or_pos killed with rfl | hkilled
  · rw [percent_zero hpos (by omega)]
    exact Nat.zero_le _
  · have hpos' : (0 : ℚ) < mutants := by exact_mod_cast hpos
    have hquotient : (killed / mutants : ℚ) ≤ killed' / mutants :=
      div_le_div_of_nonneg_right (by exact_mod_cast h) hpos'.le
    have hkilled' : (0 : ℚ) < killed / mutants := div_pos (by exact_mod_cast hkilled) hpos'
    rw [percent_eq_floor hkilled (h.trans hle) hmutants,
      percent_eq_floor (hkilled.trans_le h) hle hmutants]
    refine Nat.floor_mono (Binary64.rounded_mono ?_ ?_)
    · exact mul_pos (Binary64.rounded_pos hkilled') (by norm_num)
    · exact mul_le_mul_of_nonneg_right (Binary64.rounded_mono hkilled' hquotient) (by norm_num)

example : percent 29 100 = 28 ∧ percent 2 7 = 28 := by decide +kernel

/-! ### Scores and verdicts -/

section Score

variable {points : List MutationPoint} {results : List MutationResult}

/-- **The score is the percentage of killed mutants, rounded down, less one at three of them.**
    (As many as `2 ^ 45` pointers do not fit into an address space.) -/
theorem score_eq (hpoints : points ≠ [])
    (hresults : ∀ result ∈ results, result.mutationPoint ∈ points) (hlength : points.length ≤ 2 ^ 45) :
    let killed := (killedMutants results).card
    let percentage := 100 * killed / points.length
    score points results =
      if points.length ∣ 100 * killed ∧ percentage ∈ roundedDown then percentage - 1 else percentage :=
  percent_eq (List.length_pos_iff.mpr hpoints) (card_killedMutants_le hresults) hlength

theorem mutationPoint_dryRunMutant :
    ∀ result ∈ dryRunMutant (oneTest true) comparisonPoint,
      result.mutationPoint ∈ [comparisonPoint] := by
  intro result hresult
  obtain ⟨test, -, rfl⟩ := List.mem_map.mp hresult
  exact List.mem_singleton_self _

theorem score_eq_dryRun :
    score [comparisonPoint] (dryRunMutant (oneTest true) comparisonPoint) = 100 := by
  have heq := @score_eq [comparisonPoint] (dryRunMutant (oneTest true) comparisonPoint)
    (List.cons_ne_nil _ _) mutationPoint_dryRunMutant (by decide)
  exact heq.trans (by decide)

/-- **A result more never lowers the score.** -/
theorem score_mono {results' : List MutationResult} (hpoints : points ≠ [])
    (hresults : ∀ result ∈ results', result.mutationPoint ∈ points) (hsubset : results ⊆ results')
    (hlength : points.length ≤ 2 ^ 45) : score points results ≤ score points results' := by
  refine percent_mono (Finset.card_le_card ?_) (card_killedMutants_le hresults)
    (List.length_pos_iff.mpr hpoints) hlength
  intro point hpoint
  obtain ⟨result, hresult, hkilled⟩ := mem_killedMutants.mp hpoint
  exact mem_killedMutants.mpr ⟨result, hsubset hresult, hkilled⟩

theorem score_mono_dryRun :
    score [comparisonPoint] [] ≤
      score [comparisonPoint] (dryRunMutant (oneTest true) comparisonPoint) :=
  score_mono (List.cons_ne_nil _ _) mutationPoint_dryRunMutant (List.nil_subset _) (by decide)

theorem percent_eq_hundred_iff {killed mutants : Nat} (hpos : 0 < mutants) (hle : killed ≤ mutants)
    (hmutants : mutants ≤ 2 ^ 45) : percent killed mutants = 100 ↔ killed = mutants := by
  rw [percent_eq hpos hle hmutants]
  constructor
  · intro h
    have hhundred : 100 ≤ 100 * killed / mutants := by
      split at h
      · omega
      · omega
    have := (Nat.le_div_iff_mul_le hpos).mp hhundred
    omega
  · rintro rfl
    rw [Nat.mul_div_cancel _ hpos, if_neg]
    rintro ⟨-, hmem⟩
    simp [roundedDown] at hmem

theorem score_eq_hundred (hpoints : points ≠ []) (hnodup : points.Nodup)
    (hresults : ∀ result ∈ results, result.mutationPoint ∈ points) (hlength : points.length ≤ 2 ^ 45) :
    score points results = 100 ↔ ∀ point ∈ points, point ∈ killedMutants results := by
  rw [score, percent_eq_hundred_iff (List.length_pos_iff.mpr hpoints) (card_killedMutants_le hresults)
    hlength]
  constructor
  · intro hcard point hpoint
    rw [killedMutants_eq_of_card hresults hcard.ge]
    exact List.mem_toFinset.mpr hpoint
  · intro hall
    have hkilled := (killedMutants_subset hresults).antisymm fun point hpoint =>
      hall point (List.mem_toFinset.mp hpoint)
    rw [hkilled, List.toFinset_card_of_nodup hnodup]

theorem getLast_reportResults (showKilled : Bool) :
    (IDEReporter.reportResults showKilled points results).getLast? =
      some (.info "Mutation score: 100%") ↔ points ≠ [] ∧ score points results = 100 := by
  unfold IDEReporter.reportResults
  by_cases hpoints : points = []
  · rw [if_pos hpoints, Reporters.IDEReporter.reportResults, if_pos hpoints]
    refine iff_of_false ?_ fun h => h.1 hpoints
    decide
  · rw [if_neg hpoints, List.getLast?_append, List.getLast?_singleton, Option.some_or, Option.some_inj]
    refine ⟨fun h => ⟨hpoints, ?_⟩, fun h => by rw [h.2]; rfl⟩
    have htext := Output.info.inj h
    have hhundred : "Mutation score: 100%" = "Mutation score: " ++ toString 100 ++ "%" := rfl
    rw [hhundred, String.append_left_inj, String.append_right_inj] at htext
    exact Naming.toString_toList_inj (congrArg String.toList htext)

theorem survivedMutants_reportResults_score (showKilled : Bool) :
    Reporters.IDEReporter.survivedMutants (IDEReporter.reportResults showKilled points results) =
      Reporters.IDEReporter.survivedMutants
        (Reporters.IDEReporter.reportResults showKilled points results) := by
  unfold IDEReporter.reportResults
  split
  · rfl
  · rw [Reporters.IDEReporter.survivedMutants, List.filterMap_append]
    exact List.append_nil _

/-- **The reporters give a score of 100 exactly if each says of no mutant that it survived.** -/
theorem score_eq_hundred_iff (hnodup : points.Nodup)
    (hresults : ∀ result ∈ results, result.mutationPoint ∈ points) (hlength : points.length ≤ 2 ^ 45)
    (showKilled : Bool) :
    (MutationTestingElementsReporter.mutationScore points results = some 100 ↔
      points ≠ [] ∧ ∀ entry ∈ Reporters.MutationTestingElementsReporter.mutantsEntries points results,
        entry.2 = "Killed") ∧
    ((IDEReporter.reportResults showKilled points results).getLast? =
        some (.info "Mutation score: 100%") ↔
      points ≠ [] ∧ Reporters.IDEReporter.survivedMutants
        (IDEReporter.reportResults showKilled points results) = []) := by
  constructor
  · unfold MutationTestingElementsReporter.mutationScore
    by_cases hpoints : points = []
    · rw [if_pos hpoints]
      exact iff_of_false (fun h => nomatch h) fun h => h.1 hpoints
    · rw [if_neg hpoints, Option.some_inj]
      have hentries : (∀ entry ∈
          Reporters.MutationTestingElementsReporter.mutantsEntries points results,
          entry.2 = "Killed") ↔ ∀ point ∈ points, point ∈ killedMutants results := by
        rw [Reporters.MutationTestingElementsReporter.mutantsEntries, List.forall_mem_map]
        refine forall₂_congr fun point _ => ?_
        by_cases hmem : point ∈ killedMutants results
        · simp [Reporters.MutationTestingElementsReporter.status, hmem]
        · simp [Reporters.MutationTestingElementsReporter.status, hmem]
      rw [hentries, ← score_eq_hundred hpoints hnodup hresults hlength]
      refine Iff.trans ?_ (and_iff_right hpoints).symm
      exact_mod_cast Iff.rfl
  · rw [getLast_reportResults, survivedMutants_reportResults_score,
      survivedMutants_reportResults hresults]
    refine and_congr_right fun hpoints => ?_
    rw [score_eq_hundred hpoints hnodup hresults hlength, List.filter_eq_nil_iff]
    simp

theorem score_eq_hundred_iff_dryRun :
    MutationTestingElementsReporter.mutationScore [comparisonPoint]
      (dryRunMutant (oneTest true) comparisonPoint) = some 100 := by
  refine (score_eq_hundred_iff (List.nodup_singleton _) mutationPoint_dryRunMutant (by decide)
    true).1.mpr ⟨List.cons_ne_nil _ _, ?_⟩
  decide

end Score

end Mull.MutationScore
