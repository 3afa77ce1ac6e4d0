import NexOs.Host.InstallSucceeds

/-! Runs of the installer under every pattern of failing calls: what it has done to
the files of the host when it stops. -/
namespace NexOs.Host
open Directory Storage Exec

variable {request : InstallRequest} {d : HostFiles} {s : Surroundings} {original : Option FileEntry}
  {faults : Nat → Bool}

theorem validateRequest_ends :
    Ends (validateRequest request) d
      (fun _ t => Quiet d t ∧ validateImagePath request.target = .ok ()) fun _ t => Quiet d t := by
  apply Ends.bind (Ends.lift (Q := fun _ t => Quiet d t ∧
    validateImagePath request.target = .ok ()) (fun _ h => ⟨.refl, Result.mapError_eq_ok.mp h⟩)
    fun _ _ => .refl)
  rintro _ t ⟨ht, hvalid⟩
  apply Ends.ensure_bind _ fun _ => ht
  intro _
  apply Ends.bind (Ends.mapError (get_ends (fun _ _ => ht.after) ht.after))
  intro kernel u hu
  apply Ends.ensure_bind _ fun _ => hu
  intro _
  apply Ends.bind (Ends.mapError (get_ends (fun _ _ => hu.after) hu.after))
  intro limine w hw
  apply Ends.ensure_bind _ fun _ => hw
  intro _
  cases request.mode with
  | guided mode => exact Ends.pure ⟨hw, hvalid⟩
  | manual esp root bios =>
    apply Ends.bind (Q := fun _ x => Quiet d x) (contains_ends (fun _ => hw.after) hw.after)
    intro present x hx
    exact Ends.lift (fun _ _ => ⟨hx, hvalid⟩) fun _ _ => hx

theorem readPayload_ends :
    Ends (readPayload request) d (fun _ t => Quiet d t) fun _ t => Quiet d t := by
  have hread : ∀ (path : FilePath) (context : String) (t : HostFiles), Quiet d t →
      Ends ((Files.read path).mapError (InstallError.io context)) t (fun _ u => Quiet d u)
        fun _ u => Quiet d u := by
    intro path context t ht
    apply Ends.mapError
    exact Files.read_ends (fun _ _ => ht.after) ht.after
  apply Ends.bind (hread _ _ d .refl)
  intro kernel t ht
  apply Ends.bind (hread _ _ t ht)
  intro bootX64 u hu
  apply Ends.bind (hread _ _ u hu)
  intro biosSys w hw
  exact Ends.pure hw

/-- What a selection has to do with the target as it was. -/
structure Selected (request : InstallRequest) (original : Option FileEntry)
    (selection : Selection) : Prop where
  inspected : inspectBytes selection.image = .ok selection.report
  manual : ∀ esp root bios, request.mode = .manual esp root bios →
    original = some (.file selection.image) ∧ selection.espIndex = esp ∧ selection.rootIndex = root

theorem guidedSelection_ok {mode : GuidedMode}
    {selection : Selection} (h : guidedSelection s sizeMib mode = .ok selection) :
    inspectBytes selection.image = .ok selection.report := by
  obtain ⟨_, -, h⟩ := Result.bind_eq_ok h
  obtain ⟨_, -, h⟩ := Result.bind_eq_ok h
  obtain ⟨image, -, h⟩ := Result.bind_eq_ok h
  obtain ⟨report, hreport, h⟩ := Result.bind_eq_ok h
  obtain ⟨_, -, h⟩ := Result.bind_eq_ok h
  obtain ⟨_, -, h⟩ := Result.bind_eq_ok h
  cases h
  exact Result.mapError_eq_ok.mp hreport

theorem manualSelection_ok {image : List UInt8}
    {selection : Selection} (h : manualSelection s image esp root = .ok selection) :
    inspectBytes image = .ok selection.report ∧ selection.image = image ∧
      selection.espIndex = esp ∧ selection.rootIndex = root := by
  obtain ⟨report, hreport, h⟩ := Result.bind_eq_ok h
  obtain ⟨_, -, h⟩ := Result.bind_eq_ok h
  obtain ⟨_, -, h⟩ := Result.bind_eq_ok h
  obtain ⟨_, -, h⟩ := Result.bind_eq_ok h
  cases h
  exact ⟨Result.mapError_eq_ok.mp hreport, rfl, rfl, rfl⟩

theorem select_ends (s : Surroundings) :
    Ends (select s request) d
      (fun selection t => Quiet d t ∧ Selected request (d.listing request.target) selection)
      fun _ t => Quiet d t := by
  unfold select
  cases hmode : request.mode with
  | guided mode =>
    apply Ends.lift _ fun _ _ => .refl
    intro selection h
    exact ⟨.refl, guidedSelection_ok h, fun esp root bios hm => by rw [hm] at hmode; cases hmode⟩
  | manual esp root bios =>
    apply Ends.ensure_bind _ fun _ => .refl
    intro _
    apply Ends.bind (Ends.mapError Files.readImage_ends)
    rintro image t ⟨ht, himage⟩
    apply Ends.lift _ fun _ _ => ht
    intro selection h
    obtain ⟨hinspect, rfl, rfl, rfl⟩ := manualSelection_ok h
    refine ⟨ht, hinspect, fun esp root bios hm => ?_⟩
    rw [hm] at hmode
    cases hmode
    exact ⟨himage, rfl, rfl⟩

theorem verifySelectedPartitions_ends (fat : FatLibrary) (path : FilePath)
    (espIndex rootIndex : Nat) :
    Ends (verifySelectedPartitions fat path espIndex rootIndex) d
      (fun report t => Quiet d t ∧ ∃ bytes, d.listing path = some (.file bytes) ∧
        verifyBytes fat bytes path espIndex rootIndex = .ok report) fun _ t => Quiet d t := by
  apply Ends.bind (Ends.mapError Files.readImage_ends)
  rintro bytes t ⟨ht, hbytes⟩
  exact Ends.lift (fun report h => ⟨ht, bytes, hbytes, h⟩) fun _ _ => ht

/-! ## The prepared file -/

section
variable {temporary : FilePath}

theorem findTool_ends (candidates : List FilePath) (d : HostFiles) :
    Ends (findTool candidates) d (fun _ t => Quiet d t) fun _ t => Quiet d t := by
  induction candidates generalizing d with
  | nil => exact Ends.fail .refl
  | cons candidate rest ih =>
    have hlook : Ends (isFile candidate) d (fun _ t => Quiet d t) fun _ t => Quiet d t :=
      Ends.of_ok rfl Quiet.refl.after
    apply Ends.bind hlook
    intro found t ht
    apply Ends.ite
    · intro _
      exact Ends.pure ht
    · intro _
      exact (ih t).mono (fun _ _ h => ht.trans h) fun _ _ h => ht.trans h

variable (hne : request.target ≠ temporary)
  (hd : Always (fun l => l request.target = original) faults d)
include hne hd

theorem installLimineBios_ends (directory : FilePath) :
    Ends (installLimineBios s temporary directory) d
      (fun _ t => Always (fun l => l request.target = original) faults t)
      fun _ t => Always (fun l => l request.target = original) faults t := by
  apply Ends.bind ((findTool_ends _ d).mono (fun _ _ h => h.always hd) fun _ _ h => h.always hd)
  intro tool t ht
  apply Ends.bind (Q := fun _ u => Always (fun l => l request.target = original) faults u)
  · apply Ends.mapError
    apply call_ends _ ht.same
    intro run l hl
    cases hl
    exact ht.after ((Function.update_of_ne hne _ _).trans ht.now)
  · intro run u hu
    exact Ends.lift (fun _ _ => hu) fun _ _ => hu

theorem prepare_ends {selection : Selection} {image : List UInt8}
    (hfile : d.listing temporary = some (.file image)) :
    Ends (prepare s request temporary selection) d
      (fun report t => Always (fun l => l request.target = original) faults t ∧
        ∃ bytes, t.listing temporary = some (.file bytes) ∧
          verifyBytes s.fat bytes temporary selection.espIndex selection.rootIndex = .ok report ∧
          (request.biosStage = false → bytes = image))
      fun _ t => Always (fun l => l request.target = original) faults t := by
  apply Ends.bind (Q := fun _ t => Always (fun l => l request.target = original) faults t ∧
    (request.biosStage = false → t.listing temporary = some (.file image)))
  · apply Ends.ite
    · intro hbios
      apply (installLimineBios_ends hne hd _).imp
      intro _ t ht
      exact ⟨ht, fun h => by rw [hbios] at h; cases h⟩
    · intro _
      exact Ends.pure ⟨hd, fun _ => hfile⟩
  · rintro _ t ⟨ht, hkept⟩
    apply (verifySelectedPartitions_ends s.fat temporary _ _).mono
    · rintro report u ⟨hu, bytes, hbytes, hverify⟩
      refine ⟨hu.always ht, bytes, hu.listing ▸ hbytes, hverify, fun hbios => ?_⟩
      have himage := hkept hbios
      rw [hbytes] at himage
      cases himage
      rfl
    · intro _ u hu
      exact hu.always ht

end

/-! ## Up to the exchange -/

/-- The installation in front of the exchange: a verified file beside a target that
nothing has touched. Without the BIOS stage it is the image that was built. -/
structure StagedFile (s : Surroundings) (request : InstallRequest) (original : Option FileEntry)
    (faults : Nat → Bool) (staged : Staged) (t : HostFiles) : Prop where
  kept : Always (fun l => l request.target = original) faults t
  valid : validateImagePath request.target = .ok ()
  named : Files.siblingPath request.target "nexos-new" = .ok staged.temporary
  verified : ∃ bytes report, t.listing staged.temporary = some (.file bytes) ∧
    verifyBytes s.fat bytes staged.temporary staged.espIndex staged.rootIndex = .ok report ∧
    (request.biosStage = false → ∃ selection files esp root, Selected request original selection ∧
      selection.espIndex = staged.espIndex ∧ selection.rootIndex = staged.rootIndex ∧
      Built selection staged.rootUuid files esp root bytes)

theorem stage_ends (hd : Always (fun l => l request.target = original) faults d) :
    Ends (stage s request) d (fun staged t => StagedFile s request original faults staged t)
      fun _ t => Always (fun l => l request.target = original) faults t := by
  apply Ends.bind (validateRequest_ends.mono (fun _ _ h => h)
    fun _ _ h => h.always hd)
  rintro _ t ⟨ht, hvalid⟩
  have hkept := ht.always hd
  apply Ends.bind (Ends.lift (Q := fun _ u => t = u) (fun _ _ => rfl) fun _ _ => hkept)
  rintro _ _ rfl
  apply Ends.bind (readPayload_ends.mono (fun _ _ h => h)
    fun _ _ h => h.always hkept)
  intro payload u hu
  have hkept := hu.always hkept
  apply Ends.bind ((select_ends s).mono (fun _ _ h => h) fun _ _ h => h.always hkept)
  rintro selection w ⟨hw, hselected⟩
  rw [hkept.now] at hselected
  have hkept := hw.always hkept
  apply Ends.bind (Ends.lift (Q := fun image x => w = x ∧
    buildImage s selection payload (generateGuid s.source selection.counter) request.mode =
      .ok image) (fun _ h => ⟨rfl, h⟩) fun _ _ => hkept)
  rintro image _ ⟨rfl, hbuild⟩
  apply Ends.bind (Ends.mapError (Files.preparedPath_ends.mono
    (fun _ _ h => h) fun _ _ h => h.always hkept))
  rintro temporary x ⟨hx, htemp⟩
  have hkept := hx.always hkept
  have hne := Files.siblingPath_ne htemp
  apply Ends.bind (Ends.mapError (Files.writePrepared_ends htemp hkept image))
  rintro _ y ⟨hy, hfile⟩
  apply Ends.bind (Q := fun r z => Always (fun l => l request.target = original) faults z ∧
    ∀ report, r = .ok report → ∃ bytes, z.listing temporary = some (.file bytes) ∧
      verifyBytes s.fat bytes temporary selection.espIndex selection.rootIndex = .ok report ∧
      (request.biosStage = false → bytes = image))
  · apply Ends.outcome
    apply (prepare_ends hne hy hfile).mono
    · rintro report z ⟨hz, hverified⟩
      refine ⟨hz, fun report' hr => ?_⟩
      cases hr
      exact hverified
    · intro _ z hz
      exact ⟨fun e => ⟨hz, nofun⟩, hz⟩
  rintro result z ⟨hz, hverified⟩
  have hremove : ∀ e : InstallError, Ends
      (do let _ ← (remove temporary).outcome; fail e : InstallCall Staged) z
      (fun staged t => StagedFile s request original faults staged t)
      fun _ t => Always (fun l => l request.target = original) faults t := by
    intro e
    apply Ends.bind (Q := fun _ t => Always (fun l => l request.target = original) faults t)
    · apply Ends.outcome
      apply remove_ends
      · exact hz.after ((Function.update_of_ne hne _ _).trans hz.now)
      · exact ⟨fun _ => hz.same, hz.same⟩
    · intro _ t ht
      exact Ends.fail ht
  cases result with
  | error e => exact hremove _
  | ok report =>
    apply Ends.ite
    · intro _
      exact hremove _
    · intro _
      obtain ⟨bytes, hbytes, hverify, himage⟩ := hverified report rfl
      obtain ⟨files, esp, root, hbuilt⟩ := buildImage_ok hbuild
      apply Ends.pure
      refine ⟨hz, hvalid, htemp, bytes, report, hbytes, hverify, fun hbios => ?_⟩
      rw [himage hbios]
      exact ⟨selection, files, esp, root, hselected, rfl, rfl, hbuilt⟩

/-- The installation behind the exchange: the target holds an image that passed the
verification. -/
structure Committed (s : Surroundings) (request : InstallRequest) (original : Option FileEntry)
    (staged : Staged) (bytes : List UInt8) (t : HostFiles) : Prop where
  file : t.listing request.target = some (.file bytes)
  valid : validateImagePath request.target = .ok ()
  verified : ∃ report,
    verifyBytes s.fat bytes request.target staged.espIndex staged.rootIndex = .ok report
  built : request.biosStage = false → ∃ selection files esp root,
    Selected request original selection ∧ selection.espIndex = staged.espIndex ∧
      selection.rootIndex = staged.rootIndex ∧
      Built selection staged.rootUuid files esp root bytes

theorem stageAndCommit_ends (hd : Always (fun l => l request.target = original) faults d) :
    Ends (stageAndCommit s request) d
      (fun staged t => t.faults = faults ∧ ∃ bytes, Committed s request original staged bytes t)
      fun _ t => Files.Unlost request.target original t.listing := by
  apply Ends.bind ((stage_ends hd).mono (fun _ _ h => h) fun _ _ h => .inl h.now)
  intro staged t ht
  obtain ⟨bytes, report, hfile, hverify, hbuilt⟩ := ht.verified
  apply Ends.bind (Ends.mapError (Files.commitPrepared_staged ht.named ht.kept))
  rintro _ u ⟨hput, hfaults⟩
  apply Ends.pure
  exact ⟨hfaults, bytes, hput.trans hfile, ht.valid,
    ⟨_, verifyBytes_path hverify request.target⟩, hbuilt⟩

theorem stageAndCommit_start_ends (s : Surroundings) (request : InstallRequest)
    (listing : Listing FilePath FileEntry) (faults : Nat → Bool) :
    Ends (stageAndCommit s request) (start listing faults)
      (fun staged t => t.faults = faults ∧
        ∃ bytes, Committed s request (listing request.target) staged bytes t)
      fun _ t => Files.Unlost request.target (listing request.target) t.listing :=
  stageAndCommit_ends (Always.start rfl)

/-! ## The check after the exchange -/

section
variable {staged : Staged} {bytes : List UInt8} {t : HostFiles}

/-- The check after the exchange goes through: its two calls do not fail, and the tool that
ran on the image kept the identifier of the root. -/
structure FinalCheckPasses (s : Surroundings) (request : InstallRequest) (staged : Staged)
    (faults : Nat → Bool) (t : HostFiles) : Prop where
  metadata : faults t.calls = false
  read : faults (t.calls + 1) = false
  uuid : request.biosStage = true → ∀ bytes report, t.listing request.target = some (.file bytes) →
    verifyBytes s.fat bytes request.target staged.espIndex staged.rootIndex = .ok report →
    report.rootUuid = staged.rootUuid

theorem finalVerification_quiet :
    Ends (finalVerification s request staged) t (fun _ u => Quiet t u)
      fun _ u => Quiet t u := by
  apply Ends.bind ((verifySelectedPartitions_ends s.fat request.target _ _).imp
    fun _ _ h => h.1)
  intro report u hu
  exact Ends.ensure_bind (fun _ => Ends.pure hu) fun _ => hu

variable (h : Committed s request original staged bytes t)
include h

theorem Committed.uuid (hbios : request.biosStage = false) {report : InstallReport}
    (hverify : verifyBytes s.fat bytes request.target staged.espIndex staged.rootIndex =
      .ok report) : report.rootUuid = staged.rootUuid := by
  obtain ⟨selection, files, esp, root, hselected, hesp, hroot, hbuilt⟩ := h.built hbios
  rw [← hesp, ← hroot] at hverify
  exact (hbuilt.verified hselected.inspected hverify).1

theorem finalVerification_run : (FinalCheckPasses s request staged t.faults t ∧
      ∃ report u, finalVerification s request staged t = (.ok report, u)) ∨
    (¬FinalCheckPasses s request staged t.faults t ∧
      ∃ e u, finalVerification s request staged t = (.error (.error e), u)) := by
  obtain ⟨report, hverify⟩ := h.verified
  by_cases hcalls : t.faults t.calls = false ∧ t.faults (t.calls + 1) = false
  case neg =>
    obtain ⟨e, u, hread⟩ := Files.readImage_fault h.valid h.file hcalls
    refine .inr ⟨fun hpass => hcalls ⟨hpass.metadata, hpass.read⟩, .host e, u, ?_⟩
    apply bind_of_error
    exact bind_of_error (mapError_of_error hread)
  have hdoes : Does (verifySelectedPartitions s.fat request.target staged.espIndex staged.rootIndex)
      t.listing 2 report t.listing :=
    (Files.readImage_does h.valid h.file).mapError.bind (.lift hverify)
  obtain ⟨u, hchecked, -⟩ := hdoes t rfl fun i hi => by
    match i, hi with
    | 0, _ => exact hcalls.1
    | 1, _ => exact hcalls.2
  by_cases huuid : report.rootUuid = staged.rootUuid
  · refine .inl ⟨⟨hcalls.1, hcalls.2, ?_⟩, ?_⟩
    · intro _ bytes' report' hfile hverify'
      rw [h.file] at hfile
      cases hfile
      rw [hverify] at hverify'
      cases hverify'
      exact huuid
    · rw [finalVerification, bind_of_ok hchecked, ensure_bind_pos huuid]
      exact ⟨_, _, rfl⟩
  · refine .inr ⟨fun hpass => ?_, ?_⟩
    · cases hbios : request.biosStage with
      | true => exact huuid (hpass.uuid hbios bytes report h.file hverify)
      | false => exact huuid (h.uuid hbios hverify)
    · rw [finalVerification, bind_of_ok hchecked, ensure_bind_neg huuid]
      exact ⟨_, _, rfl⟩

end

end NexOs.Host
