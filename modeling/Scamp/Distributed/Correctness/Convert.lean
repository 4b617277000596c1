import Scamp.Distributed.Messages

/-!
# `Distributed.Correctness.Convert` — arguments through a message

`convert_restores_iff`: arguments that are put into a message and taken out again are what they were, except
that `PRECISION_ULTRA` has no value in the message and is lost. The conversions of profiles are round trips
on the profiles that a distributed join has (`HostProfile.convert_convert`).
-/

namespace Scamp

/-! ## Enumerations -/

/-- The profile types that messages carry. -/
def SCAMPProfileType.Carried (t : SCAMPProfileType) : Prop :=
  t = .oneNNIndex ∨ t = .oneNN ∨ t = .sumThresh

instance (t : SCAMPProfileType) : Decidable t.Carried := by
  unfold SCAMPProfileType.Carried
  infer_instance

theorem profileType_convert_convert {t : SCAMPProfileType} (h : t.Carried) : t.convert.convert = t := by
  rcases h with rfl | rfl | rfl <;> rfl

/-- A precision comes back, unless it is the one that messages do not have. -/
theorem precisionType_convert_convert (t : SCAMPPrecisionType) : t.convert.convert = t ↔ t ≠ .ultra := by
  cases t <;> simp [SCAMPPrecisionType.convert, SCAMPProto.SCAMPPrecisionType.convert]

section
variable {K : Type}

/-! ## Profiles -/

/-- A block of which only the vector that a type uses is set. -/
def ProfileData.Only (t : SCAMPProfileType) (block : ProfileData K) : Prop :=
  match t with
  | .oneNNIndex => block = { ProfileData.empty with uint64Value := block.uint64Value }
  | .oneNN => block = { ProfileData.empty with floatValue := block.floatValue }
  | .sumThresh => block = { ProfileData.empty with doubleValue := block.doubleValue }
  | _ => False

/-- A profile that messages carry: it holds at most one block, and only the data of its type. -/
structure HostProfile.Carried (p : HostProfile K) : Prop where
  type : p.type.Carried
  length : p.data.length ≤ 1
  only : ∀ block ∈ p.data, block.Only p.type

/-- **A profile comes back from its message.** -/
theorem HostProfile.convert_convert {p : HostProfile K} (h : p.Carried) :
    ∃ proto, p.convert = some proto ∧ proto.convert = some p := by
  obtain ⟨type, data⟩ := p
  obtain ⟨htype, hlength, honly⟩ := h
  match data with
  | [] =>
      refine ⟨_, rfl, ?_⟩
      simp only [SCAMPProto.Profile.convert]
      rw [profileType_convert_convert htype]
  | [block] =>
      have hblock := honly block List.mem_cons_self
      obtain ⟨words, floats, doubles⟩ := block
      -- an empty vector is not put into the message, and comes back empty
      rcases htype with rfl | rfl | rfl
      · obtain ⟨rfl, rfl⟩ : floats = [] ∧ doubles = [] := by simpa [ProfileData.Only, ProfileData.empty] using hblock
        cases words with
        | nil => exact ⟨_, rfl, rfl⟩
        | cons word words => exact ⟨_, rfl, rfl⟩
      · obtain ⟨rfl, rfl⟩ : words = [] ∧ doubles = [] := by simpa [ProfileData.Only, ProfileData.empty] using hblock
        cases floats with
        | nil => exact ⟨_, rfl, rfl⟩
        | cons float floats => exact ⟨_, rfl, rfl⟩
      · obtain ⟨rfl, rfl⟩ : words = [] ∧ floats = [] := by simpa [ProfileData.Only, ProfileData.empty] using hblock
        cases doubles with
        | nil => exact ⟨_, rfl, rfl⟩
        | cons double doubles => exact ⟨_, rfl, rfl⟩

/-- A profile without data has a message. -/
theorem HostProfile.convert_nil {p : HostProfile K} (h : p.data = []) : ∃ proto, p.convert = some proto := by
  unfold HostProfile.convert
  rw [h]
  exact ⟨_, rfl⟩

/-! ## Series -/

theorem copySeries_eq (elems : List (Sample K)) : copySeries elems = elems := by
  have happend : ∀ series : List (Sample K),
      elems.foldl (fun series elem => series ++ [elem]) series = series ++ elems := by
    induction elems with
    | nil => exact fun series => (List.append_nil series).symm
    | cons elem elems ih =>
        intro series
        rw [List.foldl_cons, ih, List.append_assoc]
        rfl
  exact happend []

/-! ## Arguments -/

/-- What comes out of a message. -/
theorem converted_eq {proto : SCAMPProto.SCAMPArgs K} {fresh args : HostArgs K}
    (h : convertProtoArgsToSCAMPArgs proto fresh = some args) : ∃ profileA profileB, args =
      { fresh with
        maxTileSize := proto.maxTileSize
        distributedStartRow := proto.distributedStartRow
        distributedStartCol := proto.distributedStartCol
        distanceThreshold := proto.distanceThreshold
        computingColumns := proto.computingColumns
        computingRows := proto.computingRows
        profileA := profileA
        profileB := profileB
        profileType := proto.profileType.convert
        precisionType := proto.precisionType.convert
        keepRowsSeparate := proto.keepRowsSeparate
        isAligned := proto.isAligned
        window := proto.window
        hasB := proto.hasB
        timeseriesA := proto.timeseriesA
        timeseriesB := proto.timeseriesB } := by
  unfold convertProtoArgsToSCAMPArgs at h
  simp only [copySeries_eq, Option.bind_eq_bind, Option.pure_def] at h
  obtain ⟨profileA, -, h⟩ := Option.bind_eq_some_iff.mp h
  split at h
  all_goals
    obtain ⟨profileB, -, h⟩ := Option.bind_eq_some_iff.mp h
    exact ⟨profileA, profileB, (Option.some.inj h).symm⟩

/-- Arguments of a distributed join: of a type that messages carry, with a profile B only if the rows have
    one. -/
structure HostArgs.Carried (args : HostArgs K) : Prop where
  type : args.profileType.Carried
  profileA : args.profileA.Carried
  profileB : args.keepRowsSeparate = true → args.profileB.Carried
  noB : args.keepRowsSeparate = false → args.profileB.data = []

/-- What determines a join is the same: every field of the message. The type of profile B is used only if
    the rows are kept. -/
structure HostArgs.Restored (args args' : HostArgs K) : Prop where
  timeseriesA : args'.timeseriesA = args.timeseriesA
  timeseriesB : args'.timeseriesB = args.timeseriesB
  profileA : args'.profileA = args.profileA
  profileB : args.keepRowsSeparate = true → args'.profileB = args.profileB
  profileBData : args'.profileB.data = args.profileB.data
  hasB : args'.hasB = args.hasB
  window : args'.window = args.window
  maxTileSize : args'.maxTileSize = args.maxTileSize
  distributedStartRow : args'.distributedStartRow = args.distributedStartRow
  distributedStartCol : args'.distributedStartCol = args.distributedStartCol
  distanceThreshold : args'.distanceThreshold = args.distanceThreshold
  precisionType : args'.precisionType = args.precisionType
  profileType : args'.profileType = args.profileType
  computingRows : args'.computingRows = args.computingRows
  computingColumns : args'.computingColumns = args.computingColumns
  keepRowsSeparate : args'.keepRowsSeparate = args.keepRowsSeparate
  isAligned : args'.isAligned = args.isAligned

variable [Zero K]

/-- **What comes out of the message of arguments**: all that the message carries, and the rest as it was. -/
theorem convert_convert_eq {args target : HostArgs K} {protoA protoB : SCAMPProto.Profile K}
    {profileA profileB : HostProfile K} (hA : args.profileA.convert = some protoA)
    (hB : args.profileB.convert = some protoB) (hbackA : protoA.convert = some profileA)
    (hbackB : (if args.keepRowsSeparate then protoB.convert else some target.profileB) = some profileB) :
    ∃ proto, convertSCAMPArgsToProtoArgs args = some proto ∧ convertProtoArgsToSCAMPArgs proto target =
      some { args with
        profileA := profileA
        profileB := profileB
        profileType := args.profileType.convert.convert
        precisionType := args.precisionType.convert.convert
        maxMatchesPerColumn := target.maxMatchesPerColumn
        matrixHeight := target.matrixHeight
        matrixWidth := target.matrixWidth } := by
  refine ⟨_, by rw [convertSCAMPArgsToProtoArgs, hA, hB]; rfl, ?_⟩
  unfold convertProtoArgsToSCAMPArgs
  dsimp only
  simp only [hbackA, copySeries_eq, Option.bind_eq_bind, Option.bind_some, Option.pure_def]
  cases hkeep : args.keepRowsSeparate with
  | true =>
      simp only [hkeep, if_true] at hbackB
      simp only [if_true, hbackB, Option.bind_some]
  | false =>
      simp only [hkeep, Bool.false_eq_true, if_false] at hbackB
      obtain rfl := Option.some.inj hbackB
      simp only [Bool.false_eq_true, if_false]

/-- **Arguments come back from their message** exactly if their precision is not `PRECISION_ULTRA`. They are
    converted into arguments that hold no profile B of their own, unless it is overwritten. -/
theorem convert_restores_iff {args target : HostArgs K} (h : args.Carried)
    (htarget : args.keepRowsSeparate = false → target.profileB.data = []) :
    ∃ proto args', convertSCAMPArgsToProtoArgs args = some proto ∧
      convertProtoArgsToSCAMPArgs proto target = some args' ∧
      (args.Restored args' ↔ args.precisionType ≠ .ultra) := by
  obtain ⟨protoA, hprotoA, hbackA⟩ := HostProfile.convert_convert h.profileA
  obtain ⟨protoB, hprotoB, profileB, hbackB, hkept, hdata⟩ : ∃ protoB, args.profileB.convert = some protoB ∧
      ∃ profileB, (if args.keepRowsSeparate then protoB.convert else some target.profileB) = some profileB ∧
        (args.keepRowsSeparate = true → profileB = args.profileB) ∧ profileB.data = args.profileB.data := by
    cases hkeep : args.keepRowsSeparate with
    | true =>
        obtain ⟨protoB, hprotoB, hbackB⟩ := HostProfile.convert_convert (h.profileB hkeep)
        exact ⟨protoB, hprotoB, args.profileB, hbackB, fun _ => rfl, rfl⟩
    | false =>
        obtain ⟨protoB, hprotoB⟩ := HostProfile.convert_nil (h.noB hkeep)
        exact ⟨protoB, hprotoB, target.profileB, rfl, nofun, (htarget hkeep).trans (h.noB hkeep).symm⟩
  obtain ⟨proto, hproto, hback⟩ := convert_convert_eq hprotoA hprotoB hbackA hbackB
  refine ⟨proto, _, hproto, hback, fun hrestored => ?_, fun hultra => ?_⟩
  · exact (precisionType_convert_convert _).mp hrestored.precisionType
  · exact
      { timeseriesA := rfl, timeseriesB := rfl, profileA := rfl, profileB := hkept, profileBData := hdata
        hasB := rfl, window := rfl, maxTileSize := rfl, distributedStartRow := rfl, distributedStartCol := rfl
        distanceThreshold := rfl, precisionType := (precisionType_convert_convert _).mpr hultra
        profileType := profileType_convert_convert h.type, computingRows := rfl, computingColumns := rfl
        keepRowsSeparate := rfl, isAligned := rfl }

end

/-- Arguments that `validate` accepts, of double precision. -/
def doubleArgs : HostArgs ℚ where
  timeseriesA := [.finite 0, .finite 1, .finite 3, .finite 2]
  timeseriesB := []
  profileA := ⟨.oneNNIndex, [⟨[⟨.num (-2), 0⟩, ⟨.num (-2), 0⟩], [], []⟩]⟩
  profileB := ⟨.invalid, []⟩
  hasB := false
  window := 3
  maxTileSize := 1024
  distributedStartRow := -1
  distributedStartCol := -1
  distanceThreshold := 0
  precisionType := .double
  profileType := .oneNNIndex
  computingRows := true
  computingColumns := true
  keepRowsSeparate := false
  isAligned := false
  maxMatchesPerColumn := 0
  matrixHeight := 0
  matrixWidth := 0

theorem doubleArgs_carried : doubleArgs.Carried where
  type := by decide
  profileA := ⟨by decide, by decide, by simp [doubleArgs, ProfileData.Only, ProfileData.empty]⟩
  profileB := nofun
  noB _ := rfl

theorem convert_restores_iff_double : ∃ proto args', convertSCAMPArgsToProtoArgs doubleArgs = some proto ∧
    convertProtoArgsToSCAMPArgs proto doubleArgs = some args' ∧
    (doubleArgs.Restored args' ↔ doubleArgs.precisionType ≠ .ultra) :=
  convert_restores_iff doubleArgs_carried fun _ => rfl

/-- The same arguments, of ultra precision. -/
def ultraArgs : HostArgs ℚ := { doubleArgs with precisionType := .ultra }

/-- **Ultra precision is lost**: the arguments are valid, and come back without a precision. -/
theorem ultraArgs_lost : ultraArgs.toArgs.validate = .ok () ∧ ultraArgs.Carried ∧
    ∃ proto args', convertSCAMPArgsToProtoArgs ultraArgs = some proto ∧
      convertProtoArgsToSCAMPArgs proto ultraArgs = some args' ∧ args'.precisionType = .invalid ∧
      ¬ultraArgs.Restored args' := by
  have hcarried : ultraArgs.Carried :=
    ⟨doubleArgs_carried.type, doubleArgs_carried.profileA, doubleArgs_carried.profileB, doubleArgs_carried.noB⟩
  exact ⟨rfl, hcarried, _, _, rfl, rfl, rfl, fun h => nomatch h.precisionType⟩

end Scamp
