import NexOs.Nexfs.Directory

/-! All inodes of a volume together. The blocks in use are exactly the reserved
ones and those of the inodes, and no block has two owners. -/
namespace NexOs.Nexfs
open Bytes Storage Function

/-- The allocated inodes of a volume. Slot 0 is never used. -/
def View.inode (V : View) (n : Nat) : Option Inode :=
  if 1 ≤ n ∧ V.inodeBit n = true then (V.slot n).toOption else none

def contentsOf (V : View) (T : Nat → Option Inode) (n : Nat) : Option (FileType × List UInt8) :=
  (T n).map fun I => (I.kind, V.content I)

/-- The inodes of the table `T` share the data blocks among them. -/
structure Claims (sb : Superblock) (V : View) (T : Nat → Option Inode) : Prop where
  intact : ∀ n I, T n = some I → Intact sb V I
  tight : ∀ n I, T n = some I → Tight I
  count : ∀ n I, T n = some I → I.blockCount = dataBlocksForSize I.size
  disjoint : ∀ n m I J, T n = some I → T m = some J → n ≠ m → ∀ b ∈ V.owned I, b ∉ V.owned J
  reserved : ∀ b < sb.dataStartBlock, V.blockBit b = true
  owner : ∀ b, V.blockBit b = true →
    b < sb.dataStartBlock ∨ ∃ n I, T n = some I ∧ b ∈ V.owned I

variable {sb : Superblock} {V V' : View} {n : Nat} {I I' J : Inode}

theorem View.pointer_data (h : V'.data = V.data) : V'.pointer I = V.pointer I :=
  View.pointer_congr rfl (by rw [h])

theorem View.owned_congr (h : V'.data = V.data) : V'.owned I = V.owned I := by
  simp only [View.owned, View.blocks, View.pointer_data h]

theorem View.content_congr (h : V'.data = V.data) : V'.content I = V.content I := by
  simp only [View.content, View.fileBytes, View.blocks, View.pointer_data h, h]

theorem Intact.congr (h : Intact sb V I) (hd : V'.data = V.data)
    (hb : V'.blockBit = V.blockBit) : Intact sb V' I := by
  have howned : V'.owned I = V.owned I := View.owned_congr hd
  refine ⟨h.fits, h.count_le, ?_, howned ▸ h.range, howned ▸ h.nodup, ?_⟩
  · rw [View.pointer_data hd]
    exact h.unused
  · rw [howned, hb]
    exact h.bits

namespace Claims
variable {T : Nat → Option Inode}

theorem congr (h : Claims sb V T) (hd : V'.data = V.data) (hb : V'.blockBit = V.blockBit) :
    Claims sb V' T := by
  have howned : ∀ K, V'.owned K = V.owned K := fun K => View.owned_congr hd
  refine ⟨fun m K hm => (h.intact m K hm).congr hd hb, h.tight, h.count, ?_, ?_, ?_⟩
  · simp only [howned]
    exact h.disjoint
  · simp only [hb]
    exact h.reserved
  · simp only [hb, howned]
    exact h.owner

theorem contentsOf_congr (hd : V'.data = V.data) : contentsOf V' T = contentsOf V T := by
  funext m
  simp only [contentsOf, View.content_congr hd]

/-- The inode `J` that takes the place of `I` has the blocks of `I'`. -/
structure Replaces (I' J : Inode) : Prop where
  fits : J.Fits
  directBlocks : J.directBlocks = I'.directBlocks
  indirectBlock : J.indirectBlock = I'.indirectBlock
  blockCount : J.blockCount = I'.blockCount
  size : J.blockCount = dataBlocksForSize J.size

section
variable (h : Replaces I' J)
include h

theorem Replaces.pointer : V.pointer J = V.pointer I' :=
  View.pointer_congr h.directBlocks (by rw [h.indirectBlock])

theorem Replaces.blocks : V.blocks J = V.blocks I' := by
  simp only [View.blocks, h.pointer, h.blockCount]

theorem Replaces.owned : V.owned J = V.owned I' := by
  simp only [View.owned, h.blocks, h.blockCount, h.indirectBlock]

theorem Replaces.fileBytes : V.fileBytes J = V.fileBytes I' := by
  simp only [View.fileBytes, h.blocks]

theorem Replaces.intact (hI : Intact sb V' I') : Intact sb V' J := by
  refine ⟨h.fits, h.blockCount ▸ hI.count_le, ?_, ?_, ?_, ?_⟩
  · rw [h.pointer, h.blockCount]
    exact hI.unused
  · rw [h.owned]
    exact hI.range
  · rw [h.owned]
    exact hI.nodup
  · rw [h.owned]
    exact hI.bits

end

/-- Another inode in one slot, or none, while the others keep their blocks. -/
theorem replace (h : Claims sb V T)
    (hkept : ∀ m K, T m = some K → m ≠ n → Intact sb V' K ∧ V'.owned K = V.owned K)
    (hnew : ∀ K, o = some K → Intact sb V' K ∧ Tight K ∧ K.blockCount = dataBlocksForSize K.size ∧
      ∀ m L, T m = some L → m ≠ n → ∀ b ∈ V'.owned K, b ∉ V.owned L)
    (hreserved : ∀ b < sb.dataStartBlock, V'.blockBit b = true)
    (howner : ∀ b, V'.blockBit b = true → b < sb.dataStartBlock ∨
      (∃ K, o = some K ∧ b ∈ V'.owned K) ∨ ∃ m K, T m = some K ∧ m ≠ n ∧ b ∈ V.owned K) :
    Claims sb V' (update T n o) := by
  have hcases : ∀ {m K}, update T n o m = some K →
      (m = n ∧ o = some K) ∨ (m ≠ n ∧ T m = some K) := by
    intro m K hm
    by_cases hne : m = n
    · subst hne
      rw [update_self] at hm
      exact .inl ⟨rfl, hm⟩
    · rw [update_of_ne hne] at hm
      exact .inr ⟨hne, hm⟩
  refine ⟨?_, ?_, ?_, ?_, hreserved, ?_⟩
  · intro m K hm
    rcases hcases hm with ⟨-, ho⟩ | ⟨hne, hm⟩
    · exact (hnew K ho).1
    · exact (hkept m K hm hne).1
  · intro m K hm
    rcases hcases hm with ⟨-, ho⟩ | ⟨-, hm⟩
    · exact (hnew K ho).2.1
    · exact h.tight m K hm
  · intro m K hm
    rcases hcases hm with ⟨-, ho⟩ | ⟨-, hm⟩
    · exact (hnew K ho).2.2.1
    · exact h.count m K hm
  · intro m₁ m₂ K₁ K₂ hm₁ hm₂ hne b hb
    rcases hcases hm₁ with ⟨rfl, ho₁⟩ | ⟨hne₁, hT₁⟩ <;>
      rcases hcases hm₂ with ⟨rfl, ho₂⟩ | ⟨hne₂, hT₂⟩
    · exact absurd rfl hne
    · rw [(hkept m₂ K₂ hT₂ hne₂).2]
      exact (hnew K₁ ho₁).2.2.2 m₂ K₂ hT₂ hne₂ b hb
    · rw [(hkept m₁ K₁ hT₁ hne₁).2] at hb
      exact fun hb' => (hnew K₂ ho₂).2.2.2 m₁ K₁ hT₁ hne₁ b hb' hb
    · rw [(hkept m₁ K₁ hT₁ hne₁).2] at hb
      rw [(hkept m₂ K₂ hT₂ hne₂).2]
      exact h.disjoint m₁ m₂ K₁ K₂ hT₁ hT₂ hne b hb
  · intro b hb
    rcases howner b hb with hlow | ⟨K, ho, hK⟩ | ⟨m, K, hm, hne, hK⟩
    · exact .inl hlow
    · exact .inr ⟨n, K, (update_self ..).trans ho, hK⟩
    · exact .inr ⟨m, K, (update_of_ne hne ..).trans hm, (hkept m K hm hne).2.symm ▸ hK⟩

theorem contentsOf_replace (o : Option Inode)
    (hkept : ∀ m K, T m = some K → m ≠ n → V'.content K = V.content K) :
    contentsOf V' (update T n o) =
      update (contentsOf V T) n (o.map fun K => (K.kind, V'.content K)) := by
  funext m
  by_cases hne : m = n
  · subst hne
    simp only [contentsOf, update_self]
  · simp only [contentsOf, update_of_ne hne]
    cases hm : T m with
    | none => rfl
    | some K => rw [Option.map_some, Option.map_some, hkept m K hm hne]

section
variable (h : Claims sb V T) (hs : Sized sb V) (hn : T n = some I) (he : Edit sb V I V' I')
include h hs hn he

theorem kept_edit (m : Nat) (K : Inode) (hm : T m = some K) (hne : m ≠ n) :
    Intact sb V' K ∧ V'.owned K = V.owned K :=
  have hapart := h.disjoint m n K I hm hn hne
  ⟨he.intact_other hs (h.intact m K hm) hapart, he.owned_other hs (h.intact m K hm) hapart⟩

theorem content_other (m : Nat) (K : Inode) (hm : T m = some K) (hne : m ≠ n) :
    V'.content K = V.content K := by
  rw [View.content, he.fileBytes_other hs (h.intact m K hm) (h.disjoint m n K I hm hn hne)]
  rfl

omit hs in
theorem not_other (hm : T m = some K) (hne : m ≠ n) (hb : b ∈ V'.owned I') : b ∉ V.owned K := by
  intro hK
  rcases he.fresh b hb with hI | hfree
  · exact h.disjoint n m I K hn hm hne.symm b hI hK
  · rw [(h.intact m K hm).bits b hK] at hfree
    cases hfree

omit hs hn in
theorem reserved_edit : ∀ b < sb.dataStartBlock, V'.blockBit b = true := by
  intro b hb
  have hout : ¬sb.InData b := fun hr => by
    have := hr.1
    omega
  rw [he.bits b (fun hm => hout (he.before.range b hm)) (fun hm => hout (he.after.range b hm))]
  exact h.reserved b hb

omit hs in
theorem owner_edit (hb : V'.blockBit b = true) : b < sb.dataStartBlock ∨
    b ∈ V'.owned I' ∨ ∃ m K, T m = some K ∧ m ≠ n ∧ b ∈ V.owned K := by
  by_cases hI' : b ∈ V'.owned I'
  · exact .inr (.inl hI')
  have hI : b ∉ V.owned I := by
    intro hI
    rw [he.lost b hI hI'] at hb
    cases hb
  rw [he.bits b hI hI'] at hb
  rcases h.owner b hb with hlow | ⟨m, K, hm, hK⟩
  · exact .inl hlow
  · have hne : m ≠ n := by
      rintro rfl
      rw [hn] at hm
      cases hm
      exact hI hK
    exact .inr (.inr ⟨m, K, hm, hne, hK⟩)

theorem edit (ht : Tight I') (hJ : Replaces I' J) : Claims sb V' (update T n (some J)) := by
  refine h.replace (h.kept_edit hs hn he) ?_ (h.reserved_edit he) ?_
  · rintro _ ⟨⟩
    refine ⟨hJ.intact he.after, ?_, hJ.size, ?_⟩
    · rw [Tight, hJ.blockCount, hJ.indirectBlock]
      exact ht
    · intro m L hm hne b hb
      rw [hJ.owned] at hb
      exact h.not_other hn he hm hne hb
  · intro b hb
    rcases h.owner_edit hn he hb with hlow | hI' | hother
    · exact .inl hlow
    · exact .inr (.inl ⟨J, rfl, hJ.owned.symm ▸ hI'⟩)
    · exact .inr (.inr hother)

theorem contentsOf_edit (hJ : Replaces I' J) :
    contentsOf V' (update T n (some J)) =
      update (contentsOf V T) n (some (J.kind, (V'.fileBytes I').take J.size)) := by
  rw [contentsOf_replace _ (h.content_other hs hn he), Option.map_some, View.content, hJ.fileBytes]

theorem delete (hempty : V'.owned I' = []) : Claims sb V' (update T n none) := by
  refine h.replace (h.kept_edit hs hn he) nofun (h.reserved_edit he) ?_
  intro b hb
  rcases h.owner_edit hn he hb with hlow | hI' | hother
  · exact .inl hlow
  · rw [hempty] at hI'
    cases hI'
  · exact .inr (.inr hother)

theorem contentsOf_delete : contentsOf V' (update T n none) = update (contentsOf V T) n none :=
  contentsOf_replace none (h.content_other hs hn he)

end

theorem insert (h : Claims sb V T) (hn : T n = none) (hJ : Intact sb V J) (ht : Tight J)
    (hc : J.blockCount = 0) (hsize : J.size = 0) : Claims sb V (update T n (some J)) := by
  have hempty : V.owned J = [] := by
    rw [View.owned, if_pos ⟨by omega, ht (by omega)⟩, View.blocks, hc]
    rfl
  refine h.replace (fun m K hm _ => ⟨h.intact m K hm, rfl⟩) ?_ h.reserved ?_
  · rintro _ ⟨⟩
    refine ⟨hJ, ht, by rw [hc, hsize]; rfl, fun m L _ _ b hb => ?_⟩
    rw [hempty] at hb
    cases hb
  · intro b hb
    rcases h.owner b hb with hlow | ⟨m, K, hm, hK⟩
    · exact .inl hlow
    · refine .inr (.inr ⟨m, K, hm, ?_, hK⟩)
      rintro rfl
      rw [hn] at hm
      cases hm

theorem contentsOf_insert (hsize : J.size = 0) :
    contentsOf V (update T n (some J)) = update (contentsOf V T) n (some (J.kind, [])) := by
  rw [contentsOf_replace _ fun _ _ _ _ => rfl, Option.map_some, View.content, hsize, List.take_zero]

end Claims

/-- The allocated inodes decode and share the data blocks among them. -/
structure Owned (sb : Superblock) (V : View) : Prop extends Claims sb V V.inode where
  reservedInode : V.inodeBit 0 = true
  inodeBits : ∀ n, sb.slots ≤ n → V.inodeBit n = false
  decoded : ∀ n, 1 ≤ n → V.inodeBit n = true → ∃ I, V.slot n = .ok I

def View.flat (V : View) : Nat → Option (FileType × List UInt8) := contentsOf V V.inode

theorem View.inode_eq_some :
    V.inode n = some I ↔ 1 ≤ n ∧ V.inodeBit n = true ∧ V.slot n = .ok I := by
  unfold View.inode
  split
  · rename_i h
    cases hslot : V.slot n with
    | ok K => simp [Except.toOption, h]
    | error e => simp [Except.toOption]
  · rename_i h
    simp only [reduceCtorEq, false_iff]
    exact fun hc => h ⟨hc.1, hc.2.1⟩

theorem Owned.lt_slots (h : Owned sb V) (hn : V.inode n = some I) : n < sb.slots := by
  by_contra hge
  have hbit := (View.inode_eq_some.mp hn).2.1
  rw [h.inodeBits n (by omega)] at hbit
  cases hbit

theorem View.flat_eq_some {kind : FileType} {bytes : List UInt8} : V.flat n = some (kind, bytes) ↔
    ∃ I, V.inode n = some I ∧ I.kind = kind ∧ V.content I = bytes := by
  simp only [View.flat, contentsOf, Option.map_eq_some_iff, Prod.mk.injEq]

theorem View.flat_of_inode (hn : V.inode n = some I) : V.flat n = some (I.kind, V.content I) :=
  View.flat_eq_some.mpr ⟨I, hn, rfl, rfl⟩

theorem View.exists_inode (hn : V.flat n ≠ none) : ∃ I, V.inode n = some I := by
  obtain ⟨⟨kind, bytes⟩, hF⟩ := Option.ne_none_iff_exists'.mp hn
  obtain ⟨I, hI, -⟩ := View.flat_eq_some.mp hF
  exact ⟨I, hI⟩

theorem Owned.lt_of_flat (h : Owned sb V) (hn : V.flat n ≠ none) : n < sb.slots := by
  obtain ⟨I, hI⟩ := View.exists_inode hn
  exact h.lt_slots hI

theorem Owned.flat_eq_none (h : Owned sb V) (hn : 1 ≤ n) :
    V.flat n = none ↔ V.inodeBit n = false := by
  rw [View.flat, contentsOf, View.inode]
  cases hbit : V.inodeBit n with
  | false => simp
  | true =>
    obtain ⟨I, hI⟩ := h.decoded n hn hbit
    simp [hn, hI, Except.toOption]

theorem View.inode_put_slot (hslot : V'.slot = V.slot) (hbit : V'.inodeBit = V.inodeBit)
    (hn : V.inode n = some I) :
    ({ V' with slot := update V'.slot n (.ok J) } : View).inode = update V.inode n (some J) := by
  obtain ⟨h1, h2, -⟩ := View.inode_eq_some.mp hn
  funext m
  by_cases hne : m = n
  · subst hne
    simp [View.inode, h1, h2, hbit, Except.toOption]
  · simp [View.inode, hbit, hslot, hne]

theorem View.inode_insert (hn : 1 ≤ n) :
    ({ V with inodeBit := update V.inodeBit n true, slot := update V.slot n (.ok J) } : View).inode =
      update V.inode n (some J) := by
  funext m
  by_cases hne : m = n
  · subst hne
    simp [View.inode, hn, Except.toOption]
  · simp [View.inode, hne]

theorem Owned.edit (h : Owned sb V) (hs : Sized sb V) (hn : V.inode n = some I)
    (he : Edit sb V I V' I') (ht : Tight I') (hJ : Claims.Replaces I' J) :
    Owned sb { V' with slot := update V'.slot n (.ok J) } ∧
      ({ V' with slot := update V'.slot n (.ok J) } : View).flat =
        update V.flat n (some (J.kind, (V'.fileBytes I').take J.size)) := by
  have hinode := View.inode_put_slot (J := J) he.slot he.inodeBit hn
  have hc := h.toClaims.edit hs hn he ht hJ
  refine ⟨⟨?_, ?_, ?_, ?_⟩, ?_⟩
  · rw [hinode]
    exact hc.congr rfl rfl
  · simp only [he.inodeBit]
    exact h.reservedInode
  · simp only [he.inodeBit]
    exact h.inodeBits
  · intro m hm hbit
    simp only [he.inodeBit] at hbit
    by_cases hne : m = n
    · exact ⟨J, by rw [hne]; exact update_self ..⟩
    · obtain ⟨K, hK⟩ := h.decoded m hm hbit
      refine ⟨K, ?_⟩
      simp only [update_of_ne hne, he.slot, hK]
  · rw [View.flat, hinode]
    have hflat := h.toClaims.contentsOf_edit hs hn he hJ
    exact (Claims.contentsOf_congr rfl).trans hflat

theorem Owned.insert (h : Owned sb V) (hn : 1 ≤ n) (hlt : n < sb.slots)
    (hbit : V.inodeBit n = false) (hJ : Intact sb V J) (ht : Tight J) (hc : J.blockCount = 0)
    (hsize : J.size = 0) :
    Owned sb { V with inodeBit := update V.inodeBit n true, slot := update V.slot n (.ok J) } ∧
      ({ V with inodeBit := update V.inodeBit n true,
                slot := update V.slot n (.ok J) } : View).flat =
        update V.flat n (some (J.kind, [])) := by
  have hnone : V.inode n = none := by simp [View.inode, hbit]
  have hinode := View.inode_insert (V := V) (J := J) hn
  refine ⟨⟨?_, ?_, ?_, ?_⟩, ?_⟩
  · rw [hinode]
    exact (h.toClaims.insert hnone hJ ht hc hsize).congr rfl rfl
  · exact (update_of_ne (by omega) ..).trans h.reservedInode
  · intro m hm
    exact (update_of_ne (by omega) ..).trans (h.inodeBits m hm)
  · intro m hm hbit'
    by_cases hne : m = n
    · exact ⟨J, by rw [hne]; exact update_self ..⟩
    · simp only [update_of_ne hne] at hbit' ⊢
      exact h.decoded m hm hbit'
  · rw [View.flat, hinode]
    exact (Claims.contentsOf_congr rfl).trans (Claims.contentsOf_insert hsize)

theorem Owned.delete (h : Owned sb V) (hs : Sized sb V) (hn : V.inode n = some I)
    (he : Edit sb V I V' I') (hempty : V'.owned I' = []) (r : Result FsError Inode) :
    Owned sb { V' with inodeBit := update V'.inodeBit n false, slot := update V'.slot n r } ∧
      ({ V' with inodeBit := update V'.inodeBit n false,
                 slot := update V'.slot n r } : View).flat = update V.flat n none := by
  have h1 := (View.inode_eq_some.mp hn).1
  have hinode : ({ V' with inodeBit := update V'.inodeBit n false,
                           slot := update V'.slot n r } : View).inode =
      update V.inode n none := by
    funext m
    by_cases hne : m = n
    · subst hne
      simp [View.inode]
    · simp [View.inode, hne, he.slot, he.inodeBit]
  refine ⟨⟨?_, ?_, ?_, ?_⟩, ?_⟩
  · rw [hinode]
    exact (h.toClaims.delete hs hn he hempty).congr rfl rfl
  · simp only [he.inodeBit, update_of_ne (show 0 ≠ n by omega)]
    exact h.reservedInode
  · intro m hm
    by_cases hne : m = n
    · rw [hne]
      exact update_self ..
    · simp only [he.inodeBit, update_of_ne hne]
      exact h.inodeBits m hm
  · intro m hm hbit
    have hne : m ≠ n := by
      rintro rfl
      simp at hbit
    simp only [he.inodeBit, he.slot, update_of_ne hne] at hbit ⊢
    exact h.decoded m hm hbit
  · rw [View.flat, hinode]
    have hflat := h.toClaims.contentsOf_delete hs hn he
    exact (Claims.contentsOf_congr rfl).trans hflat

end NexOs.Nexfs
