import Mathlib.Data.List.Infix
import NexOs.Host.Files
import NexOs.Host.RoundTrip

/-! Replacing an image never loses it: whichever calls fail, what stood under the
target is found there or under the backup name, and at every step in between. -/
namespace NexOs.Host
open List Directory Exec

/-- What stood under the target before is still there, or under the backup name; a free
target is still free. -/
def Preserved (target backup : FilePath) (original : Option FileEntry)
    (l : Listing FilePath FileEntry) : Prop :=
  match original with
  | some entry => l target = some entry ∨ l backup = some entry
  | none => l target = none

variable {l : Listing FilePath FileEntry}

theorem preserved_of_target {target backup : FilePath} {original : Option FileEntry}
    (h : l target = original) : Preserved target backup original l := by
  cases original with
  | some entry => exact .inl h
  | none => exact h

namespace Files
variable {d : HostFiles} {faults : Nat → Bool} {path temporary : FilePath}
  {original : Option FileEntry}

theorem read_ends {Q : List UInt8 → HostFiles → Prop} {R : HostFiles → Prop}
    (hok : ∀ bytes, d.listing path = some (.file bytes) → Q bytes (d.after d.listing))
    (herr : R (d.after d.listing)) : Ends (read path) d Q fun _ t => R t := by
  apply call_ends _ herr
  intro bytes l h
  cases he : d.listing path with
  | none => simp [he] at h
  | some entry =>
    cases entry with
    | file bytes' =>
      simp only [he, Except.ok.injEq, Prod.mk.injEq] at h
      rw [← h.1, ← h.2]
      exact hok bytes' he
    | directory => simp [he] at h
    | other => simp [he] at h

theorem validateExistingImage_ends :
    Ends (validateExistingImage path) d (fun _ t => Quiet d t) fun _ t => Quiet d t := by
  apply Ends.bind (Ends.lift (fun _ _ => Quiet.refl) fun _ _ => Quiet.refl)
  intro _ t ht
  apply Ends.bind (Ends.mapError (get_ends (fun _ _ => ht.after) ht.after))
  intro entry u hu
  exact Ends.lift (fun _ _ => hu) fun _ _ => hu

theorem readImage_ends :
    Ends (readImage path) d
      (fun bytes t => Quiet d t ∧ d.listing path = some (.file bytes)) fun _ t => Quiet d t := by
  apply Ends.bind validateExistingImage_ends
  intro _ t ht
  apply Ends.mapError
  exact read_ends (fun bytes hb => ⟨ht.after, ht.listing ▸ hb⟩) ht.after

section
variable {bytes : List UInt8} {listing : Listing FilePath FileEntry}

theorem read_does (hfile : listing path = some (.file bytes)) :
    Does (read path) listing 1 bytes listing :=
  .call (by rw [hfile])

variable (hvalid : validateImagePath path = .ok ()) (hfile : listing path = some (.file bytes))
include hvalid hfile

theorem validateExistingImage_does : Does (validateExistingImage path) listing 1 () listing :=
  .lift_bind hvalid <| (Does.get hfile).mapError.bind <| .lift rfl

theorem readImage_does : Does (readImage path) listing 2 bytes listing :=
  (validateExistingImage_does hvalid hfile).bind (read_does hfile).mapError

theorem inspectImage_does {report : DiskReport} (hinspect : inspectBytes bytes = .ok report) :
    Does (inspectImage path) listing 2 report listing :=
  (validateExistingImage_does hvalid hfile).bind <|
    (read_does hfile).mapError.bind (Does.lift hinspect).mapError

omit hfile in
theorem readImage_fault (hfile : d.listing path = some (.file bytes))
    (hfault : ¬(d.faults d.calls = false ∧ d.faults (d.calls + 1) = false)) :
    ∃ e t, readImage path d = (.error (.error e), t) := by
  cases hmeta : d.faults d.calls with
  | true =>
    have hget : get path d = (.error (.error .fault), d.after d.listing) :=
      call_fault hmeta
    refine ⟨.io .fault, d.after d.listing, bind_of_error ?_⟩
    rw [validateExistingImage, hvalid, lift_ok_bind, bind_of_error (mapError_of_error hget)]
  | false =>
    have hread : d.faults (d.calls + 1) = true :=
      Bool.eq_true_of_not_eq_false fun h => hfault ⟨hmeta, h⟩
    obtain ⟨t, hrun, -, hfaults, hcalls⟩ := validateExistingImage_does hvalid hfile d rfl
      fun i hi => by rwa [Nat.lt_one_iff.mp hi]
    have hbytes : read path t = (.error (.error .fault), t.after t.listing) :=
      call_fault (by rwa [hfaults, hcalls])
    exact ⟨.io .fault, _, (bind_of_ok hrun).trans (mapError_of_error hbytes)⟩

end

theorem inspectImage_eq :
    inspectImage path =
      readImage path >>= fun bytes => mapError .disk (lift (inspectBytes bytes)) := by
  unfold inspectImage readImage
  rw [bind_assoc_run]

theorem inspectImage_ends :
    Ends (inspectImage path) d
      (fun report t => Quiet d t ∧ ∃ bytes, d.listing path = some (.file bytes) ∧
        inspectBytes bytes = .ok report) fun _ t => Quiet d t := by
  rw [inspectImage_eq]
  apply Ends.bind readImage_ends
  intro bytes t ht
  apply Ends.mapError
  exact Ends.lift (fun report hr => ⟨ht.1, bytes, ht.2, hr⟩) fun _ _ => ht.1

section
variable {path backup other : FilePath} {suffix suffix' : String}

variable (h : siblingPath path suffix = .ok backup)
include h

theorem siblingPath_ne : path ≠ backup := by
  unfold siblingPath at h
  split at h
  · rename_i name hname
    cases h
    intro he
    have hlen := congrArg (fun p : FilePath => (p.fileName.getD []).length) he
    simp [hname] at hlen
  · cases h

theorem siblingPath_parents : backup.parents = path.parents := by
  unfold siblingPath at h
  split at h
  · cases h
    rfl
  · cases h

theorem siblingPath_ne_of_ne (h' : siblingPath path suffix' = .ok other)
    (hne : suffix.toList ≠ suffix'.toList) : backup ≠ other := by
  unfold siblingPath at h h'
  split at h
  · rename_i name hname
    rw [hname] at h'
    cases h
    cases h'
    intro he
    have hname := congrArg FilePath.fileName he
    simp only [Option.some.injEq, append_cancel_left_eq, cons.injEq, true_and] at hname
    exact hne hname
  · cases h

end

section
variable {path temporary backup : FilePath} {entry : FileEntry}
variable (hbackup : siblingPath path "nexos-backup" = .ok backup)
include hbackup

section
variable (hd : Always (Preserved path backup (some entry)) faults d)
  (hentry : d.listing backup = some entry)
include hd hentry

/-- Once the original has its backup name, only the last removal takes it away. -/
theorem settle_ends :
    Ends (settle path backup) d
      (fun _ t => t.listing path = d.listing path ∧
        Before (Preserved path backup (some entry)) faults t)
      fun _ t => Always (Preserved path backup (some entry)) faults t := by
  have hne : path ≠ backup := siblingPath_ne hbackup
  apply Ends.bind (Q := fun _ t => Quiet d t)
  · apply Ends.outcome
    exact inspectImage_ends.mono (fun _ _ h => h.1)
      fun _ _ h => ⟨fun _ => h, h.always hd⟩
  · intro result t ht
    have hlisting : t.listing backup = some entry := ht.listing ▸ hentry
    cases result with
    | ok report =>
      apply Ends.mapError
      apply remove_ends
      · refine ⟨?_, (ht.always hd).before⟩
        rw [after_listing, Function.update_of_ne hne, ht.listing]
      · exact (ht.always hd).same
    | error e =>
      apply Ends.bind (Ends.lift (Q := fun failed u =>
        siblingPath path "nexos-failed" = .ok failed ∧ t = u) (fun _ h => ⟨h, rfl⟩)
        fun _ _ => ht.always hd)
      rintro failed _ ⟨hfailed, rfl⟩
      have hfb : backup ≠ failed := siblingPath_ne_of_ne hbackup hfailed (by decide)
      -- the backup name is not touched by the first of the two renames
      apply Ends.bind (Q := fun _ u =>
        Always (Preserved path backup (some entry)) faults u ∧ u.listing backup = some entry)
      · apply Ends.outcome
        apply rename_ends
        · intro c hc
          have hmoved : t.listing.moved path failed backup = some entry := by
            rw [Listing.moved_other (Ne.symm hne) hfb, hlisting]
          exact ⟨(ht.always hd).after (.inr hmoved), hmoved⟩
        · exact ⟨fun _ => ⟨(ht.always hd).same, hlisting⟩, (ht.always hd).same⟩
      · rintro _ u ⟨hu, hub⟩
        apply Ends.bind (Q := fun _ w => Always (Preserved path backup (some entry)) faults w)
        · apply Ends.outcome
          apply rename_ends
          · intro c hc
            apply hu.after
            exact .inl (Listing.moved_destination.trans hub)
          · exact ⟨fun _ => hu.same, hu.same⟩
        · intro _ w hw
          exact Ends.fail hw

theorem exchange_ends (htemp : temporary ≠ backup) :
    Ends (exchange path temporary backup) d
      (fun _ t => d.listing temporary ≠ none ∧ t.listing path = d.listing temporary ∧
        Before (Preserved path backup (some entry)) faults t)
      fun _ t => Always (Preserved path backup (some entry)) faults t := by
  have hne : path ≠ backup := siblingPath_ne hbackup
  apply Ends.bind (Q := fun r t => Always (Preserved path backup (some entry)) faults t ∧
    t.listing backup = some entry ∧ (r = .ok () → d.listing temporary ≠ none ∧
      t.listing path = d.listing temporary))
  · apply Ends.outcome
    apply rename_ends
    · intro c hc
      have hmoved : d.listing.moved temporary path backup = some entry := by
        rw [Listing.moved_other (Ne.symm htemp) (Ne.symm hne), hentry]
      exact ⟨hd.after (.inr hmoved), hmoved, fun _ => ⟨by simp [hc], Listing.moved_destination⟩⟩
    · exact ⟨fun e => ⟨hd.same, hentry, fun h => by cases h⟩, hd.same⟩
  · rintro result t ⟨ht, htb, hput⟩
    cases result with
    | ok u =>
      apply (settle_ends hbackup ht htb).imp
      intro _ w hw
      exact ⟨(hput rfl).1, hw.1.trans (hput rfl).2, hw.2⟩
    | error e =>
      apply Ends.bind (Q := fun _ w => Always (Preserved path backup (some entry)) faults w)
      · apply Ends.outcome
        apply rename_ends
        · intro c hc
          apply ht.after
          exact .inl (Listing.moved_destination.trans htb)
        · exact ⟨fun _ => ht.same, ht.same⟩
      · intro _ w hw
        exact Ends.fail hw

end

/-- What `commit_prepared` does, whichever of its calls fail. A target that is not a
regular file must not be the prepared file itself, which is removed then. -/
theorem commitPrepared_ends (hd : Always (Preserved path backup (d.listing path)) faults d)
    (htemp : temporary ≠ backup)
    (hother : temporary ≠ path ∨ ∃ bytes, d.listing path = some (.file bytes)) :
    Ends (commitPrepared path temporary) d
      (fun _ t => d.listing temporary ≠ none ∧ t.listing path = d.listing temporary ∧
        Before (Preserved path backup (d.listing path)) faults t)
      fun _ t => Always (Preserved path backup (d.listing path)) faults t := by
  have hne : path ≠ backup := siblingPath_ne hbackup
  apply Ends.lift_bind hbackup
  apply Ends.bind (Q := fun present t => t = d.after d.listing ∧
    (present = true → d.listing path ≠ none))
  · exact contains_ends (fun h => ⟨rfl, fun _ => h⟩) ⟨rfl, fun h => by cases h⟩
  rintro present _ ⟨rfl, hpresent⟩
  apply Ends.ite
  · intro _
    apply Ends.mapError
    apply rename_ends
    · intro c hc
      exact ⟨fun h => by simp [h] at hc, Listing.moved_destination, hd.same.before⟩
    · exact hd.same.same
  · intro hp
    obtain ⟨entry, hentry⟩ : ∃ entry, d.listing path = some entry :=
      Option.ne_none_iff_exists'.mp (hpresent (by simpa using hp))
    rw [hentry] at hd
    rw [hentry]
    apply Ends.bind (Q := fun c t => d.listing path = some c ∧
      t = (d.after d.listing).after d.listing)
    · apply Ends.mapError
      exact get_ends (fun c hc => ⟨hc, rfl⟩) hd.same.same
    rintro metadata _ ⟨hmeta, rfl⟩
    rw [hentry, Option.some.injEq] at hmeta
    subst hmeta
    have hquiet : Always (Preserved path backup (some entry)) faults ((d.after d.listing).after d.listing) :=
      hd.same.same
    apply Ends.ite
    · intro _
      apply Ends.bind (Q := fun _ t => Always (Preserved path backup (some entry)) faults t ∧
        t.listing = d.listing.moved path backup)
      · apply Ends.mapError
        apply rename_ends
        · intro c hc
          exact ⟨hquiet.after (.inr (Listing.moved_destination.trans hentry)), rfl⟩
        · exact hquiet.same
      · rintro _ t ⟨ht, hlisting⟩
        have htb : t.listing backup = some entry := by
          rw [hlisting, Listing.moved_destination, hentry]
        apply (exchange_ends hbackup ht htb htemp).imp
        rintro _ u ⟨hsome, hput, hpast⟩
        have hsame : t.listing temporary = d.listing temporary := by
          by_cases htp : temporary = path
          · exact absurd (by rw [hlisting, htp, Listing.moved_source hne]) hsome
          · rw [hlisting, Listing.moved_other htp htemp]
        exact ⟨hsame ▸ hsome, hput.trans hsame, hpast⟩
    · intro hregular
      have htp : path ≠ temporary := by
        rcases hother with h | ⟨bytes, hb⟩
        · exact Ne.symm h
        · rw [hentry, Option.some.injEq] at hb
          exact absurd (by rw [hb]; rfl) hregular
      apply Ends.bind (Q := fun _ t => Always (Preserved path backup (some entry)) faults t)
      · apply Ends.outcome
        apply remove_ends
        · apply hquiet.after
          exact .inl ((Function.update_of_ne htp _ _).trans hentry)
        · exact ⟨fun _ => hquiet.same, hquiet.same⟩
      · intro _ t ht
        exact Ends.fail ht

end

/-! ## Preparing -/

theorem not_mem_ancestors (path : FilePath) : path ∉ path.ancestors := by
  intro h
  obtain ⟨c, hc, hpath⟩ := mem_map.mp h
  have hparents : c.dropLast = path.parents := congrArg FilePath.parents hpath
  have hle : c <+: path.parents := (mem_inits _ _).mp (mem_of_mem_tail hc)
  have hlen := congrArg length hparents
  rw [length_dropLast] at hlen
  have hzero : c = [] ∧ path.parents = [] := by
    have := hle.length_le
    exact ⟨eq_nil_of_length_eq_zero (by omega), eq_nil_of_length_eq_zero (by omega)⟩
  rw [hzero.2] at hc
  cases hc

theorem siblingPath_ancestors {path sibling : FilePath} {suffix : String}
    (h : siblingPath path suffix = .ok sibling) : sibling.ancestors = path.ancestors := by
  unfold siblingPath at h
  split at h
  · cases h
    rfl
  · cases h

theorem createParent_ends {other : FilePath} (hother : path ∉ other.ancestors)
    (hd : Always (fun l => l path = original) faults d) :
    Ends (createParent other) d (fun _ t => Always (fun l => l path = original) faults t)
      fun _ t => Always (fun l => l path = original) faults t := by
  apply Ends.ite
  · intro _
    exact Ends.pure hd
  · intro _
    apply Ends.mapError
    apply call_ends _ hd.same
    intro _ l hl
    split at hl
    · cases hl
    · cases hl
      apply hd.after
      rw [if_neg fun h => hother h.2]
      exact hd.now

theorem preparedPath_ends :
    Ends (preparedPath path) d
      (fun temporary t => Quiet d t ∧ siblingPath path "nexos-new" = .ok temporary)
      fun _ t => Quiet d t := by
  apply Ends.bind (Ends.lift (Q := fun temporary t => Quiet d t ∧
    siblingPath path "nexos-new" = .ok temporary) (fun _ h => ⟨.refl, h⟩) fun _ _ => .refl)
  rintro temporary t ⟨ht, htemp⟩
  apply Ends.bind (Ends.lift (Q := fun _ u => Quiet d u) (fun _ _ => ht) fun _ _ => ht)
  intro backup u hu
  apply Ends.bind (Q := fun _ w => Quiet d w)
  · apply Ends.bind (Q := fun _ w => Quiet d w) (contains_ends (fun _ => hu.after) hu.after)
    intro present w hw
    apply Ends.ite
    · intro _
      exact Ends.pure hw
    · intro _
      exact contains_ends (fun _ => hw.after) hw.after
  · intro stale w hw
    exact Ends.ensure_bind (fun _ => Ends.pure ⟨hw, htemp⟩) fun _ => hw

theorem writePrepared_ends (htemp : siblingPath path "nexos-new" = .ok temporary)
    (hd : Always (fun l => l path = original) faults d) (bytes : List UInt8) :
    Ends (writePrepared temporary bytes) d
      (fun _ t => Always (fun l => l path = original) faults t ∧
        t.listing temporary = some (.file bytes))
      fun _ t => Always (fun l => l path = original) faults t := by
  have hne : path ≠ temporary := siblingPath_ne htemp
  have hput : ∀ (t : HostFiles) (entry : FileEntry), Always (fun l => l path = original) faults t →
      Always (fun l => l path = original) faults
        (t.after (Function.update t.listing temporary (some entry))) := by
    intro t entry ht
    exact ht.after ((Function.update_of_ne hne _ _).trans ht.now)
  have hancestors : path ∉ temporary.ancestors := by
    rw [siblingPath_ancestors htemp]
    exact not_mem_ancestors path
  apply Ends.bind (createParent_ends hancestors hd)
  intro _ t ht
  apply Ends.bind (Q := fun _ u => Always (fun l => l path = original) faults u)
  · apply Ends.mapError
    exact create_ends (fun _ => hput t _ ht) ht.same
  intro _ u hu
  apply Ends.bind (Q := fun _ w => Always (fun l => l path = original) faults w ∧
    w.listing temporary = some (.file bytes))
  · apply Ends.mapError
    exact replace_ends ⟨hput u _ hu, Function.update_self ..⟩ hu.same
  · rintro _ w ⟨hw, hfile⟩
    apply Ends.mapError
    exact sync_ends ⟨hw.same, hfile⟩ hw.same

/-! ## Replacing -/

/-- What stood under the target before is there, or under the backup name. -/
def Unlost (target : FilePath) (original : Option FileEntry) (l : Listing FilePath FileEntry) :
    Prop :=
  l target = original ∨ ∃ backup entry, siblingPath target "nexos-backup" = .ok backup ∧
    original = some entry ∧ l backup = some entry

theorem unlost_of_preserved {target backup : FilePath}
    (hbackup : siblingPath target "nexos-backup" = .ok backup)
    (h : Preserved target backup original l) : Unlost target original l := by
  cases original with
  | none => exact .inl h
  | some entry => exact h.imp_right fun hl => ⟨backup, entry, hbackup, rfl, hl⟩

theorem commitPrepared_kept (htemp : siblingPath path "nexos-new" = .ok temporary)
    (hd : Always (fun l => l path = original) faults d) :
    Ends (commitPrepared path temporary) d
      (fun _ t => t.listing path = d.listing temporary ∧ Before (Unlost path original) faults t)
      fun _ t => Always (Unlost path original) faults t := by
  obtain ⟨backup, hbackup⟩ : ∃ backup, siblingPath path "nexos-backup" = .ok backup := by
    unfold siblingPath at htemp ⊢
    split at htemp
    · exact ⟨_, rfl⟩
    · cases htemp
  have hnow : d.listing path = original := hd.now
  have hkept : Always (Preserved path backup (d.listing path)) faults d :=
    hd.mono fun l hl => preserved_of_target (hl.trans hnow.symm)
  have hunlost : ∀ l, Preserved path backup (d.listing path) l → Unlost path original l :=
    fun l hl => unlost_of_preserved hbackup (hnow ▸ hl)
  apply (commitPrepared_ends hbackup hkept (siblingPath_ne_of_ne htemp hbackup (by decide))
    (.inl (Ne.symm (siblingPath_ne htemp)))).mono
  · rintro _ t ⟨-, hput, hbefore⟩
    exact ⟨hput, fun l hl => hunlost l (hbefore.past l hl), hbefore.faults⟩
  · intro _ t ht
    exact ht.mono hunlost

theorem commitPrepared_staged (htemp : siblingPath path "nexos-new" = .ok temporary)
    (hd : Always (fun l => l path = original) faults d) :
    Ends (commitPrepared path temporary) d
      (fun _ t => t.listing path = d.listing temporary ∧ t.faults = faults)
      fun _ t => Unlost path original t.listing :=
  (commitPrepared_kept htemp hd).mono (fun _ _ h => ⟨h.1, h.2.faults⟩) fun _ _ h => h.now

/-- Whichever calls fail, and wherever `write_transactional` is cut off, what stood under the
target is there or under the backup name. When it succeeds, the target holds the new bytes, and
their table can be read. -/
theorem writeTransactional_ends (listing : Listing FilePath FileEntry) (faults : Nat → Bool)
    (path : FilePath) (bytes : List UInt8) :
    Ends (writeTransactional path bytes) (start listing faults)
      (fun _ t => t.listing path = some (.file bytes) ∧
        (∃ report, inspectBytes bytes = .ok report) ∧
          Before (Unlost path (listing path)) faults t)
      fun _ t => Always (Unlost path (listing path)) faults t := by
  have hd : Always (fun l => l path = listing path) faults (start listing faults) := .start rfl
  have hfirst : ∀ t, Always (fun l => l path = listing path) faults t →
      Always (Unlost path (listing path)) faults t :=
    fun t ht => ht.mono fun _ => .inl
  apply Ends.bind (Ends.lift (Q := fun _ t => start listing faults = t) (fun _ _ => rfl)
    fun _ _ => hfirst _ hd)
  rintro _ _ rfl
  apply Ends.bind ((createParent_ends (not_mem_ancestors path) hd).mono (fun _ _ h => h)
    fun _ => hfirst)
  intro _ t ht
  apply Ends.bind (preparedPath_ends.mono (fun _ _ h => h)
    fun _ _ h => hfirst _ (h.always ht))
  rintro temporary u ⟨hu, htemp⟩
  have hkept := hu.always ht
  apply Ends.bind ((writePrepared_ends htemp hkept bytes).mono (fun _ _ h => h)
    fun _ => hfirst)
  rintro _ w ⟨hw, hfile⟩
  apply Ends.bind (Q := fun r x => Quiet w x ∧
    ∀ report, r = .ok report → inspectBytes bytes = .ok report)
  · apply Ends.outcome
    apply inspectImage_ends.mono
    · rintro report x ⟨hx, bytes', hbytes, hinspect⟩
      rw [hfile] at hbytes
      cases hbytes
      refine ⟨hx, fun report' hr => ?_⟩
      cases hr
      exact hinspect
    · intro _ x hx
      exact ⟨fun e => ⟨hx, nofun⟩, hfirst _ (hx.always hw)⟩
  rintro result x ⟨hx, hinspect⟩
  have hkept := hx.always hw
  cases result with
  | ok report =>
    apply (commitPrepared_kept htemp hkept).imp
    rintro _ y ⟨hput, hbefore⟩
    rw [hx.listing, hfile] at hput
    exact ⟨hput, ⟨report, hinspect report rfl⟩, hbefore⟩
  | error e =>
    apply Ends.bind (Q := fun _ y => Always (fun l => l path = listing path) faults y)
    · apply Ends.outcome
      apply remove_ends
      · apply hkept.after
        exact (Function.update_of_ne (siblingPath_ne htemp) _ _).trans hkept.now
      · exact ⟨fun _ => hkept.same, hfirst _ hkept.same⟩
    · intro _ y hy
      exact Ends.fail (hfirst _ hy)

/-- Whichever calls fail, the image that the target held is under its name or under the
backup name after every call, until the prepared image has taken its place for good. -/
theorem commit_keeps_original (listing : Listing FilePath FileEntry) (faults : Nat → Bool)
    {path temporary backup : FilePath} {original prepared : List UInt8}
    (hbackup : siblingPath path "nexos-backup" = .ok backup) (hfree : listing backup = none)
    (horiginal : listing path = some (.file original))
    (hprepared : listing temporary = some (.file prepared))
    {r : Result HostError Unit} {d : HostFiles}
    (hrun : commitPrepared path temporary (start listing faults) = (r, d)) :
    (r = .ok () → d.listing path = some (.file prepared)) ∧
      (r ≠ .ok () → d.listing path = some (.file original) ∨
        d.listing backup = some (.file original)) ∧
      ∀ l ∈ d.past, l path = some (.file original) ∨ l backup = some (.file original) := by
  have htemp : temporary ≠ backup := by
    rintro rfl
    rw [hfree] at hprepared
    cases hprepared
  have hstart : Always (Preserved path backup ((start listing faults).listing path)) faults
      (start listing faults) := Always.start (preserved_of_target rfl)
  have hends := commitPrepared_ends hbackup hstart htemp (.inr ⟨original, horiginal⟩)
  have hpreserved : ∀ l, Preserved path backup ((start listing faults).listing path) l →
      l path = some (.file original) ∨ l backup = some (.file original) := by
    intro l hl
    change Preserved path backup (listing path) l at hl
    rwa [horiginal] at hl
  cases r with
  | ok u =>
    obtain ⟨-, hput, hpast⟩ := hends.ok hrun
    exact ⟨fun _ => hput.trans hprepared, fun h => absurd rfl h,
      fun l hl => hpreserved l (hpast.past l hl)⟩
  | error e =>
    have halways := hends.error hrun
    exact ⟨by simp, fun _ => hpreserved _ halways.now,
      fun l hl => hpreserved l (halways.past l hl)⟩

def sampleTarget : FilePath := { parents := [], fileName := some "disk.img".toList }

def sampleBackup : FilePath := { parents := [], fileName := some "disk.img.nexos-backup".toList }

def sampleNew : FilePath := { parents := [], fileName := some "disk.img.nexos-new".toList }

def twoFiles : Listing FilePath FileEntry := fun name =>
  if name = sampleTarget then some (.file [1])
  else if name = sampleNew then some (.file [2]) else none

/-- The second rename fails, and the original goes back to its name. -/
theorem commit_keeps_original_rollback :
    ∃ d, commitPrepared sampleTarget sampleNew (start twoFiles fun call => call == 3) =
        (.error (.error (.cannotCommit .fault)), d) ∧
      (d.listing sampleTarget = some (.file [1]) ∨ d.listing sampleBackup = some (.file [1])) ∧
      ∀ l ∈ d.past, l sampleTarget = some (.file [1]) ∨ l sampleBackup = some (.file [1]) := by
  have hbackup : siblingPath sampleTarget "nexos-backup" = .ok sampleBackup := rfl
  have horiginal : twoFiles sampleTarget = some (.file [1]) := rfl
  have hprepared : twoFiles sampleNew = some (.file [2]) := rfl
  have hrun : commitPrepared sampleTarget sampleNew (start twoFiles fun call => call == 3) =
    (.error (.error (.cannotCommit .fault)), _) := rfl
  obtain ⟨-, hkept, hpast⟩ := commit_keeps_original twoFiles _ hbackup rfl horiginal hprepared hrun
  exact ⟨_, hrun, hkept (by simp), hpast⟩

end Files

end NexOs.Host
