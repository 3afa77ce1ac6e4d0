import NexOs.Storage.Fat32

/-! The sizes that `choose_format_geometry` finds: for which devices there is one, and what
it promises. -/
namespace NexOs.Storage
open Bytes Result

/-! ## The geometry -/

/-- The sectors of a FAT for as many clusters as fit behind the reserved sectors. -/
def fatSectorsFor (totalSectors sectorsPerCluster : Nat) : Nat :=
  divCeil (((totalSectors - 32) / sectorsPerCluster + 2) * 4) 512

def overheadFor (totalSectors sectorsPerCluster : Nat) : Nat :=
  32 + 2 * fatSectorsFor totalSectors sectorsPerCluster

def clustersFor (totalSectors sectorsPerCluster : Nat) : Nat :=
  (totalSectors - overheadFor totalSectors sectorsPerCluster) / sectorsPerCluster

structure Suits (totalSectors sectorsPerCluster : Nat) : Prop where
  overhead : overheadFor totalSectors sectorsPerCluster ≤ totalSectors
  clusters_ge : 65525 ≤ clustersFor totalSectors sectorsPerCluster
  clusters_le : clustersFor totalSectors sectorsPerCluster ≤ 0x0ffffff5

/-- Enough clusters of one sector fit behind two FATs for all of the device. -/
def Formattable (totalSectors : Nat) : Prop :=
  overheadFor totalSectors 1 + 65525 ≤ totalSectors

instance (totalSectors : Nat) : Decidable (Formattable totalSectors) :=
  inferInstanceAs (Decidable (_ ≤ _))

instance (totalSectors sectorsPerCluster : Nat) :
    Decidable (Suits totalSectors sectorsPerCluster) :=
  decidable_of_iff (overheadFor totalSectors sectorsPerCluster ≤ totalSectors ∧
    65525 ≤ clustersFor totalSectors sectorsPerCluster ∧
    clustersFor totalSectors sectorsPerCluster ≤ 0x0ffffff5)
    ⟨fun h => ⟨h.1, h.2.1, h.2.2⟩, fun h => ⟨h.1, h.2, h.3⟩⟩

variable {total spc : Nat} {sizes : List Nat}

theorem fatSectorsFor_le (total spc : Nat) : fatSectorsFor total spc ≤ fatSectorsFor total 1 := by
  have hdiv := Nat.div_le_self (total - 32) spc
  unfold fatSectorsFor divCeil
  omega

theorem fatSectorsFor_one_lt (htotal : total < 2 ^ 32) : fatSectorsFor total 1 < 2 ^ 26 := by
  unfold fatSectorsFor divCeil
  omega

theorem fatSectorsFor_capacity (total spc : Nat) :
    clustersFor total spc + 2 ≤ fatSectorsFor total spc * 512 / 4 := by
  have hle : clustersFor total spc ≤ (total - 32) / spc := by
    apply Nat.div_le_div_right
    unfold overheadFor
    omega
  unfold fatSectorsFor divCeil
  omega

theorem chooseGeometryFrom_cons (htotal : total < 2 ^ 32) (rest : List Nat) :
    chooseGeometryFrom total 512 (spc :: rest) =
      if 32 ≤ total ∧ overheadFor total spc ≤ total then
        if Suits total spc then
          .ok (spc, fatSectorsFor total spc, clustersFor total spc)
        else chooseGeometryFrom total 512 rest
      else fail .unsupportedFilesystem := by
  have hdiv := Nat.div_le_self (total - 32) spc
  have hfat := (fatSectorsFor_le total spc).trans_lt (fatSectorsFor_one_lt htotal)
  have hcap := fatSectorsFor_capacity total spc
  rw [chooseGeometryFrom]
  dsimp only [fatCount]
  by_cases hres : 32 ≤ total
  · have hentries : (addU32 ((total - 32) / spc) 2 : Result StorageError Nat) =
        .ok ((total - 32) / spc + 2) := if_pos (by omega)
    have hfats : (mulU32 2 (fatSectorsFor total spc) : Result StorageError Nat) =
        .ok (2 * fatSectorsFor total spc) := if_pos (by omega)
    have hsum : checkedAddU32 32 (2 * fatSectorsFor total spc) =
        some (overheadFor total spc) := if_pos (by omega)
    have hsectors : divCeil (((total - 32) / spc + 2) * 4) 512 =
        fatSectorsFor total spc := rfl
    rw [checkedSub_eq hres, okOr_some, bind_ok, hentries, bind_ok, hsectors,
      ensure_pos (by omega), bind_ok, hfats, bind_ok, hsum, okOr_some, bind_ok]
    by_cases hover : overheadFor total spc ≤ total
    · have hfits : 32 ≤ total ∧ overheadFor total spc ≤ total := ⟨hres, hover⟩
      rw [checkedSub_eq hover, okOr_some, bind_ok, if_pos hfits]
      have hclusters : (total - overheadFor total spc) / spc = clustersFor total spc := rfl
      rw [hclusters]
      by_cases hsuits : Suits total spc
      · rw [if_pos ⟨⟨hsuits.clusters_ge, hsuits.clusters_le⟩, hcap⟩, if_pos hsuits]
      · rw [if_neg hsuits, if_neg]
        intro hand
        exact hsuits ⟨hover, hand.1.1, hand.1.2⟩
    · rw [if_neg fun hand => hover hand.2, checkedSub, if_neg hover]
      rfl
  · rw [if_neg fun hand => hres hand.1, checkedSub, if_neg hres]
    rfl

theorem chooseGeometryFrom_result (htotal : total < 2 ^ 32) :
    (∃ spc ∈ sizes, Suits total spc ∧ chooseGeometryFrom total 512 sizes =
      .ok (spc, fatSectorsFor total spc, clustersFor total spc)) ∨
    chooseGeometryFrom total 512 sizes = fail .unsupportedFilesystem := by
  induction sizes with
  | nil => exact .inr rfl
  | cons spc rest ih =>
    rw [chooseGeometryFrom_cons htotal]
    by_cases hover : 32 ≤ total ∧ overheadFor total spc ≤ total
    · rw [if_pos hover]
      by_cases hsuits : Suits total spc
      · rw [if_pos hsuits]
        exact .inl ⟨spc, .head _, hsuits, rfl⟩
      · rw [if_neg hsuits]
        rcases ih with ⟨spc', hmem, hrest⟩ | hfail
        · exact .inl ⟨spc', .tail _ hmem, hrest⟩
        · exact .inr hfail
    · rw [if_neg hover]
      exact .inr rfl

theorem Suits.formattable (h : Suits total spc) (hspc : 0 < spc) : Formattable total := by
  have hge := h.clusters_ge
  have hmul := Nat.div_mul_le_self (total - overheadFor total spc) spc
  by_cases hone : spc = 1
  · subst hone
    unfold clustersFor at hge
    unfold Formattable
    omega
  · have hclusters := Nat.mul_le_mul hge (show 2 ≤ spc by omega)
    unfold clustersFor at hclusters
    unfold Formattable overheadFor fatSectorsFor divCeil
    omega

theorem Formattable.overhead (h : Formattable total) (spc : Nat) :
    32 ≤ total ∧ overheadFor total spc ≤ total := by
  have hle := fatSectorsFor_le total spc
  unfold Formattable overheadFor at h
  unfold overheadFor
  omega

/-- One of the first five sizes suits: a larger one is tried only while there are too
many clusters. -/
theorem Formattable.suits (h : Formattable total) (htotal : total < 2 ^ 32) :
    ∃ spc ∈ [1, 2, 4, 8, 16], Suits total spc := by
  by_contra hnone
  have hno : ∀ spc ∈ [1, 2, 4, 8, 16], clustersFor total spc < 65525 ∨
      0x0ffffff5 < clustersFor total spc := by
    intro spc hspc
    by_contra hboth
    exact hnone ⟨spc, hspc, (h.overhead spc).2, by omega, by omega⟩
  have h₁ := hno 1 (by simp)
  have h₂ := hno 2 (by simp)
  have h₄ := hno 4 (by simp)
  have h₈ := hno 8 (by simp)
  have h₁₆ := hno 16 (by simp)
  unfold Formattable at h
  unfold clustersFor at h₁ h₂ h₄ h₈ h₁₆
  unfold overheadFor fatSectorsFor divCeil at h h₁ h₂ h₄ h₈ h₁₆
  omega

theorem chooseGeometryFrom_ok (h : Formattable total) (htotal : total < 2 ^ 32)
    (hsuits : ∃ spc ∈ sizes, Suits total spc) :
    chooseGeometryFrom total 512 sizes ≠ fail .unsupportedFilesystem := by
  induction sizes with
  | nil =>
    obtain ⟨_, hmem, _⟩ := hsuits
    cases hmem
  | cons spc rest ih =>
    rw [chooseGeometryFrom_cons htotal, if_pos (h.overhead spc)]
    by_cases hspc : Suits total spc
    · rw [if_pos hspc]
      intro hfail
      cases hfail
    · rw [if_neg hspc]
      apply ih
      obtain ⟨other, hmem, hother⟩ := hsuits
      rcases List.mem_cons.mp hmem with rfl | hmem
      · exact absurd hother hspc
      · exact ⟨other, hmem, hother⟩

def clusterSizes : List Nat := [1, 2, 4, 8, 16, 32, 64, 128]

theorem clusterSizes_pos : ∀ spc ∈ clusterSizes, 0 < spc := by decide

theorem chooseFormatGeometry_result (htotal : total < 2 ^ 32) :
    (Formattable total ∧ ∃ spc ∈ clusterSizes, Suits total spc ∧ chooseFormatGeometry total 512 =
      .ok (spc, fatSectorsFor total spc, clustersFor total spc)) ∨
    (¬Formattable total ∧ chooseFormatGeometry total 512 = fail .unsupportedFilesystem) := by
  rcases chooseGeometryFrom_result htotal with ⟨spc, hmem, hsuits, hrun⟩ | hfail
  · exact .inl ⟨hsuits.formattable (clusterSizes_pos spc hmem), spc, hmem, hsuits, hrun⟩
  · refine .inr ⟨fun h => ?_, hfail⟩
    obtain ⟨spc, hmem, hsuits⟩ := h.suits htotal
    have hsubset : [1, 2, 4, 8, 16] ⊆ clusterSizes := by decide
    exact chooseGeometryFrom_ok h htotal ⟨spc, hsubset hmem, hsuits⟩ hfail

end NexOs.Storage
