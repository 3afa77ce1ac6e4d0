import NexOs.Fat.Volume
import NexOs.Lib.Chained
import Mathlib.Data.List.Perm.Subperm

/-! Chains of clusters, and how they are followed. -/
namespace NexOs.Storage
open List Bytes Exec

def Volume.next (v : Volume) (c : Nat) : Option Nat :=
  if v.fat c ≥ fatEocMin then none else some (v.fat c)

namespace Fat32

structure IsChain (fs : Fat32) (v : Volume) (c : Nat) (cs : List Nat) : Prop where
  linked : Chained v.next c cs
  valid : ∀ x ∈ cs, fs.validCluster x

def LinksTo (fs : Fat32) (d : Disk) (a b : Nat) : Prop :=
  ∀ fuel chain,
    fs.clusterChainFrom (fuel + 1) a chain d = fs.clusterChainFrom fuel b (chain ++ [a]) d

variable {fs : Fat32} {d : Disk} {v : Volume} {c fuel : Nat} {cs : List Nat}

theorem mem_range'_iff : c ∈ range' 2 fs.totalClusters ↔ fs.validCluster c := by
  rw [mem_range'_1, validCluster]
  omega

theorem IsChain.length_le (h : fs.IsChain v c cs) : cs.length ≤ fs.totalClusters := by
  have hsub : cs ⊆ range' 2 fs.totalClusters := fun x hx => mem_range'_iff.mpr (h.valid x hx)
  have hle := (subperm_of_subset h.linked.nodup hsub).length_le
  rwa [length_range'] at hle

theorem clusterChainFrom_end (h : fs.Geometry d) (ha : fs.validCluster a)
    (hend : fatEocMin ≤ fs.fatEntry d 0 a) (fuel : Nat) (chain : List Nat) :
    fs.clusterChainFrom (fuel + 1) a chain d = (.ok (chain ++ [a]), d) := by
  rw [clusterChainFrom, bind_of_ok (h.readFatEntry_run ha), if_pos hend]
  rfl

theorem linksTo_of_entry (h : fs.Geometry d) (ha : fs.validCluster a)
    (hb : fs.validCluster (fs.fatEntry d 0 a)) (hlink : fs.fatEntry d 0 a < fatEocMin) :
    fs.LinksTo d a (fs.fatEntry d 0 a) := by
  intro fuel chain
  rw [clusterChainFrom, bind_of_ok (h.readFatEntry_run ha), if_neg (Nat.not_le.mpr hlink),
    ensure_bind_pos hb]

/-! ## Whole chains -/

section
variable (h : fs.Geometry d) (hfat : ∀ c, fs.validCluster c → fs.fatEntry d 0 c = v.fat c)
include h hfat

/-- The loop returns the chain, or there is none of at most `fuel` clusters. -/
theorem Geometry.clusterChainFrom_cases (hc : fs.validCluster c) (acc : List Nat) :
    (∃ cs, fs.IsChain v c cs ∧ fs.clusterChainFrom fuel c acc d = (.ok (acc ++ cs), d)) ∨
    fs.clusterChainFrom fuel c acc d = (Result.fail .corruptFilesystem, d) ∧
      ∀ cs, fs.IsChain v c cs → fuel < cs.length := by
  induction fuel generalizing c acc with
  | zero => exact .inr ⟨rfl, fun cs hcs => length_pos_of_mem hcs.linked.mem_head⟩
  | succ fuel ih =>
    have hentry := hfat c hc
    by_cases hend : fatEocMin ≤ v.fat c
    · have hlast : v.next c = none := if_pos hend
      refine .inl ⟨[c], ⟨.last hlast, forall_mem_singleton.mpr hc⟩, ?_⟩
      exact clusterChainFrom_end h hc (hentry ▸ hend) fuel acc
    have hnext : v.next c = some (v.fat c) := if_neg hend
    have hrest : ∀ cs, fs.IsChain v c cs → ∃ rest, fs.IsChain v (v.fat c) rest ∧ cs = c :: rest := by
      rintro cs ⟨hlinked, hvalid⟩
      cases hlinked with
      | last hlast => cases hnext.symm.trans hlast
      | link hlink rest =>
        cases hnext.symm.trans hlink
        exact ⟨_, ⟨rest, fun x hx => hvalid x (.tail _ hx)⟩, rfl⟩
    by_cases hvalid : fs.validCluster (v.fat c)
    · have hlinks := linksTo_of_entry h hc (hentry ▸ hvalid) (hentry ▸ Nat.not_le.mp hend) fuel acc
      rw [hentry] at hlinks
      rw [hlinks]
      rcases ih hvalid (acc ++ [c]) with ⟨cs, hcs, hrun⟩ | ⟨hrun, hnone⟩
      · refine .inl ⟨c :: cs, ⟨.link hnext hcs.linked, forall_mem_cons.mpr ⟨hc, hcs.valid⟩⟩, ?_⟩
        rw [hrun, append_assoc, singleton_append]
      · refine .inr ⟨hrun, fun cs hcs => ?_⟩
        obtain ⟨rest, hrest, rfl⟩ := hrest cs hcs
        exact Nat.succ_lt_succ (hnone rest hrest)
    · refine .inr ⟨?_, fun cs hcs => ?_⟩
      · rw [clusterChainFrom, bind_of_ok (h.readFatEntry_run hc), hentry, if_neg hend,
          ensure_bind_neg hvalid]
        rfl
      · obtain ⟨rest, hrest, rfl⟩ := hrest cs hcs
        exact absurd (hrest.valid _ hrest.linked.mem_head) hvalid

/-- The bound on the rounds refuses no chain: a chain has no cluster twice. -/
theorem Geometry.clusterChain_cases (c : Nat) :
    (∃ cs, fs.IsChain v c cs ∧ fs.clusterChain c d = (.ok cs, d)) ∨
    fs.clusterChain c d = (Result.fail .corruptFilesystem, d) ∧ ∀ cs, ¬fs.IsChain v c cs := by
  unfold clusterChain
  by_cases hc : fs.validCluster c
  · rw [ensure_bind_pos hc]
    rcases h.clusterChainFrom_cases hfat hc [] with hchain | ⟨hrun, hnone⟩
    · exact .inl hchain
    · exact .inr ⟨hrun, fun cs hcs => Nat.not_lt.mpr hcs.length_le (hnone cs hcs)⟩
  · rw [ensure_bind_neg hc]
    exact .inr ⟨rfl, fun cs hcs => hc (hcs.valid c hcs.linked.mem_head)⟩

end

theorem Holds.clusterChain_run (h : fs.Holds d v) (hchain : fs.IsChain v c cs) :
    fs.clusterChain c d = (.ok cs, d) := by
  have hfat := h.fat 0 h.geometry.fats_pos
  rcases h.geometry.clusterChain_cases hfat c with ⟨cs', hcs', hrun⟩ | ⟨_, hnone⟩
  · rw [hrun, hcs'.linked.unique hchain.linked]
  · exact absurd hchain (hnone cs)

end Fat32

end NexOs.Storage
