/-
  The search for a conversion path.

  The loop pops partial paths until none is left. What it collects does not depend on the order
  of the stack (`searchConversions_ok`): the paths that each item yields, an item being cut off
  where it is accepted. Every accepted path is one that the request admits, and every path that
  the request admits begins with an accepted one, so the least accepted path is the least of all
  (`conversionPath_least`).
-/
import Blut.GraphCore.Lower
import Blut.GraphCore.RegistryInvariant

namespace Blut.GraphCore

open Blut.Lib

variable {request : ConversionRequest} {kernels path : List KernelDescriptor}
  {kernel : KernelDescriptor} {layout layout' : Layout} {bytes bytes' budget budget' : Nat}
  {item next : PartialPath}

/-! ## Conversion paths -/

/-- The conversions lead from one layout and capacity to another, each accepting what the one
    before it delivers. -/
def Converts : List KernelDescriptor → Layout → Nat → Layout → Nat → Prop
  | [], layout, bytes, layout', bytes' => layout = layout' ∧ bytes = bytes'
  | kernel :: path, layout, bytes, layout', bytes' => ∃ conversion,
    kernel.conversion = some conversion ∧ conversion.src = layout ∧
      bytes ≤ conversion.maxInputBytes ∧
      Converts path conversion.dst conversion.maxOutputBytes layout' bytes'

theorem Converts.snoc (h : Converts path layout bytes layout' bytes')
    {conversion : LayoutConversion}
    (hconv : kernel.conversion = some conversion) (hsrc : conversion.src = layout')
    (hbytes : bytes' ≤ conversion.maxInputBytes) :
    Converts (path ++ [kernel]) layout bytes conversion.dst conversion.maxOutputBytes := by
  induction path generalizing layout bytes with
  | nil =>
    obtain ⟨rfl, rfl⟩ := h
    exact ⟨conversion, hconv, hsrc, hbytes, rfl, rfl⟩
  | cons first path ih =>
    obtain ⟨found, hfound, hfrom, hfits, hrest⟩ := h
    exact ⟨found, hfound, hfrom, hfits, ih hrest⟩

/-! ## The search -/

variable {solutions : List (List KernelDescriptor)} {frontier : List PartialPath}

theorem PartialPath.extend_eq_some :
    item.extend kernel = some next ↔ ∃ conversion, kernel.conversion = some conversion ∧
      conversion.src = item.layout ∧ item.capacityBytes ≤ conversion.maxInputBytes ∧
      conversion.dst ∉ item.visited ∧ next = {
        layout := conversion.dst
        capacityBytes := conversion.maxOutputBytes
        path := item.path ++ [kernel]
        visited := item.visited ++ [conversion.dst] } := by
  simp [PartialPath.extend, Option.bind_eq_some_iff, and_assoc, eq_comm (a := next)]

/-- The search collects the item's path instead of extending it. -/
def PartialPath.Accepted (request : ConversionRequest) (item : PartialPath) : Prop :=
  (item.layout ∈ request.targets ∧ item.capacityBytes ≤ request.targetMaxBytes) ∧ item.path ≠ []

/-- The paths that the search collects below an item. -/
inductive Yields (request : ConversionRequest) (kernels : List KernelDescriptor) :
    PartialPath → List KernelDescriptor → Prop
  | accepted {item : PartialPath} (h : item.Accepted request) :
    Yields request kernels item item.path
  | extended {item next : PartialPath} {kernel : KernelDescriptor} {path : List KernelDescriptor}
    (h : ¬ item.Accepted request) (hdepth : item.visited.length < 5) (hkernel : kernel ∈ kernels)
    (hnext : item.extend kernel = some next) (hpath : Yields request kernels next path) :
    Yields request kernels item path

theorem searchConversions_ok {out : List (List KernelDescriptor)}
    (h : searchConversions request kernels budget frontier solutions = .ok (out, budget')) :
    path ∈ out ↔ path ∈ solutions ∨ ∃ item ∈ frontier, Yields request kernels item path := by
  induction budget generalizing frontier solutions with
  | zero =>
    cases frontier with
    | nil =>
      rw [searchConversions] at h
      simp [(Prod.mk.inj (Except.ok.inj h)).1]
    | cons item frontier => simp [searchConversions, fail] at h
  | succ budget ih =>
    cases frontier with
    | nil =>
      rw [searchConversions] at h
      simp [(Prod.mk.inj (Except.ok.inj h)).1]
    | cons item frontier =>
      rw [searchConversions] at h
      split_ifs at h with hdone hdeep
      all_goals
        rw [ih h, List.exists_mem_cons_iff]
        simp only [Bool.and_eq_true, decide_eq_true_eq, List.contains_iff_mem, Bool.not_eq_true',
          List.isEmpty_eq_false_iff] at hdone
      · -- the item is a solution, and is not extended
        have hitem : Yields request kernels item path ↔ path = item.path := by
          refine ⟨fun hyields => ?_, fun heq => heq ▸ .accepted hdone⟩
          cases hyields with
          | accepted => rfl
          | extended hnot => exact absurd hdone hnot
        rw [hitem, List.mem_append, List.mem_singleton, or_assoc]
      · have hitem : ¬ Yields request kernels item path := by
          intro hyields
          cases hyields with
          | accepted haccepted => exact hdone haccepted
          | extended _ hdepth => omega
        rw [iff_false_intro hitem, false_or]
      · have hitem : Yields request kernels item path ↔
            ∃ next ∈ kernels.filterMap item.extend, Yields request kernels next path := by
          constructor
          · intro hyields
            cases hyields with
            | accepted haccepted => exact absurd haccepted hdone
            | extended _ _ hkernel hnext hpath =>
              exact ⟨_, List.mem_filterMap.mpr ⟨_, hkernel, hnext⟩, hpath⟩
          · rintro ⟨next, hmem, hyields⟩
            obtain ⟨kernel, hkernel, hnext⟩ := List.mem_filterMap.mp hmem
            exact .extended hdone (by omega) hkernel hnext hyields
        rw [hitem]
        simp only [List.mem_append, or_and_right, exists_or]

theorem searchConversions_error {fault : Fault CompileError}
    (h : searchConversions request kernels budget frontier solutions = .error fault) :
    fault = .err .searchLimitExceeded := by
  induction budget generalizing frontier solutions with
  | zero =>
    cases frontier with
    | nil => simp [searchConversions] at h
    | cons item frontier =>
      rw [searchConversions] at h
      exact (Except.error.inj h).symm
  | succ budget ih =>
    cases frontier with
    | nil => simp [searchConversions] at h
    | cons item frontier =>
      rw [searchConversions] at h
      split_ifs at h
      all_goals exact ih h

/-! ## What it finds -/

/-- The layouts that a path leads through. -/
def layoutsOf (path : List KernelDescriptor) : List Layout :=
  path.filterMap fun kernel => kernel.conversion.map LayoutConversion.dst

/-- A partial path of the search. -/
structure PartialPath.Follows (request : ConversionRequest) (kernels : List KernelDescriptor)
    (item : PartialPath) : Prop where
  kernels : ∀ kernel ∈ item.path, kernel ∈ kernels
  converts : Converts item.path request.src request.maxBytes item.layout item.capacityBytes
  visited : item.visited = request.src :: layoutsOf item.path
  distinct : item.visited.Nodup

theorem PartialPath.Follows.extend (h : item.Follows request kernels) (hkernel : kernel ∈ kernels)
    (hnext : item.extend kernel = some next) : next.Follows request kernels := by
  obtain ⟨conversion, hconv, hsrc, hbytes, hfresh, rfl⟩ := PartialPath.extend_eq_some.mp hnext
  refine ⟨?_, h.converts.snoc hconv hsrc hbytes, ?_, ?_⟩
  · simpa [or_imp, forall_and, hkernel] using h.kernels
  · simp [h.visited, layoutsOf, hconv]
  · simpa using h.distinct.concat hfresh

theorem Yields.sound (h : Yields request kernels item path) (hitem : item.Follows request kernels) :
    ∃ last : PartialPath, last.Follows request kernels ∧ last.Accepted request ∧
      last.path = path := by
  induction h with
  | accepted h => exact ⟨_, hitem, h, rfl⟩
  | extended _ _ hkernel hnext _ ih => exact ih (hitem.extend hkernel hnext)

theorem length_le_of_known {layouts : List Layout} (hnd : layouts.Nodup)
    (hknown : ∀ layout ∈ layouts, layout.isKnown = true) : layouts.length ≤ 5 := by
  have hsub : layouts ⊆ List.range 5 := by
    intro layout hmem
    have hle := hknown layout hmem
    simp only [Layout.isKnown, decide_eq_true_eq] at hle
    exact List.mem_range.mpr (Nat.lt_succ_of_le hle)
  exact (List.subperm_of_subset hnd hsub).length_le

/-- However an item goes on to an admissible end, the search collects a path along that way. The
    induction is on the way that is left. -/
theorem Yields.complete {rest : List KernelDescriptor}
    (hkernels : ∀ kernel ∈ rest, kernel ∈ kernels)
    (hconverts : Converts rest item.layout item.capacityBytes layout bytes)
    (htarget : layout ∈ request.targets ∧ bytes ≤ request.targetMaxBytes)
    (hne : item.path ++ rest ≠ []) (hdistinct : (item.visited ++ layoutsOf rest).Nodup)
    (hknown : ∀ layout ∈ item.visited ++ layoutsOf rest, layout.isKnown = true) :
    ∃ path, Yields request kernels item path ∧ path <+: item.path ++ rest := by
  induction rest generalizing item with
  | nil =>
    obtain ⟨rfl, rfl⟩ := hconverts
    exact ⟨item.path, .accepted ⟨htarget, by simpa using hne⟩, List.prefix_append _ _⟩
  | cons kernel rest ih =>
    by_cases haccepted : item.Accepted request
    · exact ⟨item.path, .accepted haccepted, List.prefix_append _ _⟩
    obtain ⟨conversion, hconv, hsrc, hbytes, hconverts⟩ := hconverts
    have hlayouts : layoutsOf (kernel :: rest) = conversion.dst :: layoutsOf rest := by
      simp [layoutsOf, hconv]
    rw [hlayouts] at hdistinct hknown
    have hfresh : conversion.dst ∉ item.visited := fun hmem =>
      (List.nodup_append.mp hdistinct).2.2 _ hmem _ List.mem_cons_self rfl
    have hlength := length_le_of_known hdistinct hknown
    rw [List.length_append, List.length_cons] at hlength
    let next : PartialPath :=
      { layout := conversion.dst
        capacityBytes := conversion.maxOutputBytes
        path := item.path ++ [kernel]
        visited := item.visited ++ [conversion.dst] }
    have hnext : item.extend kernel = some next :=
      PartialPath.extend_eq_some.mpr ⟨conversion, hconv, hsrc, hbytes, hfresh, rfl⟩
    have hrest : Converts rest next.layout next.capacityBytes layout bytes := hconverts
    obtain ⟨path, hpath, hprefix⟩ := ih (fun k hk => hkernels k (List.mem_cons_of_mem _ hk)) hrest
      (by simp [next]) (by simpa [next] using hdistinct) (by simpa [next] using hknown)
    refine ⟨path, .extended haccepted (by omega) (hkernels kernel List.mem_cons_self) hnext hpath,
      ?_⟩
    simpa [next] using hprefix

/-! ## The least path -/

variable {registry : KernelRegistry}

/-- The path that the search starts from. -/
def ConversionRequest.start (request : ConversionRequest) : PartialPath :=
  { layout := request.src, capacityBytes := request.maxBytes, path := [], visited := [request.src] }

theorem conversionPath_cases (registry : KernelRegistry) (request : ConversionRequest)
    (budget : Nat) :
    conversionPath registry request budget = fail .searchLimitExceeded ∨
      ∃ solutions left,
        conversionPath registry request budget = .ok (minBy pathKey solutions, left) ∧
        ∀ path, path ∈ solutions ↔
          Yields request (conversionKernels registry request) request.start path := by
  have hpath : conversionPath registry request budget =
      (searchConversions request (conversionKernels registry request) budget [request.start] [] >>=
        fun found => pure (minBy pathKey found.1, found.2)) := rfl
  cases hsearch : searchConversions request (conversionKernels registry request) budget
      [request.start] [] with
  | error fault =>
    rw [hpath, hsearch, searchConversions_error hsearch]
    exact Or.inl rfl
  | ok result =>
    obtain ⟨solutions, left⟩ := result
    refine Or.inr ⟨solutions, left, by rw [hpath, hsearch]; rfl, fun path => ?_⟩
    rw [searchConversions_ok hsearch]
    simp

theorem follows_start : request.start.Follows request kernels :=
  ⟨fun _ h => absurd h List.not_mem_nil, ⟨rfl, rfl⟩, rfl, List.nodup_singleton _⟩

/-- A registered bit-exact conversion for the target and type of the request. -/
structure ConversionRequest.Uses (request : ConversionRequest) (registry : KernelRegistry)
    (kernel : KernelDescriptor) : Prop where
  registered : kernel ∈ registry.kernels.values
  target : kernel.target = request.target
  determinism : kernel.determinism = .bitExact
  conversion : ∃ conversion, kernel.conversion = some conversion ∧
    conversion.semanticType = request.semanticType

/-- A sequence of conversions that serves the request, through pairwise distinct layouts. -/
structure ConversionRequest.Admits (request : ConversionRequest) (registry : KernelRegistry)
    (path : List KernelDescriptor) : Prop where
  nonempty : path ≠ []
  uses : ∀ kernel ∈ path, request.Uses registry kernel
  distinct : (request.src :: layoutsOf path).Nodup
  converts : ∃ layout bytes, Converts path request.src request.maxBytes layout bytes ∧
    layout ∈ request.targets ∧ bytes ≤ request.targetMaxBytes

theorem mem_conversionKernels_iff {blake3 : Blake3} (h : registry.Invariant blake3) :
    kernel ∈ conversionKernels registry request ↔ request.Uses registry kernel := by
  unfold conversionKernels
  simp only [mem_sortBy, List.mem_filter, Bool.and_eq_true, decide_eq_true_eq, List.isEmpty_iff,
    Option.any_eq_true, List.contains_iff_mem]
  constructor
  · rintro ⟨hmem, ⟨⟨htarget, -⟩, hexact⟩, conversion, hconv, ⟨htype, -⟩, -⟩
    exact ⟨hmem, htarget, hexact, conversion, hconv, htype⟩
  · rintro ⟨hmem, htarget, hexact, conversion, hconv, htype⟩
    obtain ⟨⟨id, _⟩, hentry, rfl⟩ := List.mem_map.mp hmem
    obtain ⟨hrole, hvalid⟩ := h.kernel id _ ((BTreeMap.get?_eq_some_iff _).mpr hentry)
    have hvalid := hvalid conversion hconv
    simp only [invalidConversion, Bool.or_eq_false_iff, Bool.not_eq_false', decide_eq_false_iff_not,
      List.contains_iff_mem] at hvalid
    rw [hconv, Option.isSome_some, eq_comm, List.isEmpty_iff] at hrole
    exact ⟨hmem, ⟨⟨htarget, hrole⟩, hexact⟩, conversion, hconv, ⟨htype, hvalid.1.1.2⟩, hvalid.1.2⟩

theorem pathKey_le_of_prefix {path path' : List KernelDescriptor} (h : path <+: path') :
    pathKey path ≤ pathKey path' := by
  rcases h.length_le.lt_or_eq with hlt | heq
  · exact (Prod.Lex.toLex_lt_toLex.mpr (Or.inl hlt)).le
  · rw [h.eq_of_length heq]

/-- The conversion search is complete and returns the least admitted path. -/
theorem conversionPath_least {blake3 : Blake3} (hreach : registry.Reachable blake3)
    (hsrc : request.src.isKnown = true)
    (hknown : ∀ kernel, request.Uses registry kernel → ∀ conversion,
      kernel.conversion = some conversion → conversion.dst.isKnown = true)
    (hbudget : conversionPath registry request budget ≠ fail .searchLimitExceeded) :
    ∃ found left, conversionPath registry request budget = .ok (found, left) ∧
      (found.isSome = true ↔ ∃ path, request.Admits registry path) ∧
      ∀ path, found = some path → request.Admits registry path ∧
        ∀ other, request.Admits registry other → pathKey path ≤ pathKey other := by
  have hi := hreach.invariant
  obtain hfail | ⟨solutions, left, hok, hyields⟩ := conversionPath_cases registry request budget
  · exact absurd hfail hbudget
  have hsound : ∀ path ∈ solutions, request.Admits registry path := by
    intro path hpath
    obtain ⟨last, hlast, haccepted, rfl⟩ := ((hyields path).mp hpath).sound follows_start
    refine ⟨haccepted.2, fun kernel hkernel => ?_, hlast.visited ▸ hlast.distinct,
      last.layout, last.capacityBytes, hlast.converts, haccepted.1⟩
    exact (mem_conversionKernels_iff hi).mp (hlast.kernels kernel hkernel)
  -- every admitted path begins with one that is collected, and that one is not greater
  have hcomplete : ∀ other, request.Admits registry other →
      ∃ path ∈ solutions, pathKey path ≤ pathKey other := by
    intro other hother
    obtain ⟨layout, bytes, hconverts, htarget⟩ := hother.converts
    have hlayouts : ∀ layout ∈ request.src :: layoutsOf other, layout.isKnown = true := by
      refine List.forall_mem_cons.mpr ⟨hsrc, fun layout hmem => ?_⟩
      obtain ⟨kernel, hkernel, hlayout⟩ := List.mem_filterMap.mp hmem
      obtain ⟨conversion, hconv, rfl⟩ := Option.map_eq_some_iff.mp hlayout
      exact hknown kernel (hother.uses kernel hkernel) conversion hconv
    have hkernels : ∀ kernel ∈ other, kernel ∈ conversionKernels registry request :=
      fun kernel hkernel => (mem_conversionKernels_iff hi).mpr (hother.uses kernel hkernel)
    obtain ⟨path, hpath, hprefix⟩ :
        ∃ path, Yields request (conversionKernels registry request) request.start path ∧
          path <+: other :=
      Yields.complete hkernels hconverts htarget hother.nonempty hother.distinct hlayouts
    exact ⟨path, (hyields path).mpr hpath, pathKey_le_of_prefix hprefix⟩
  refine ⟨_, left, hok, ⟨fun hsome => ?_, fun ⟨other, hother⟩ => ?_⟩, fun path hmin => ?_⟩
  · obtain ⟨path, hmin⟩ := Option.isSome_iff_exists.mp hsome
    exact ⟨path, hsound path (minBy_eq_some hmin).1⟩
  · obtain ⟨path, hpath, -⟩ := hcomplete other hother
    rw [Option.isSome_iff_ne_none, Ne, minBy_eq_none]
    exact List.ne_nil_of_mem hpath
  · obtain ⟨hmem, hleast⟩ := minBy_eq_some hmin
    refine ⟨hsound path hmem, fun other hother => ?_⟩
    obtain ⟨path', hpath', hle⟩ := hcomplete other hother
    exact (hleast path' hpath').trans hle

/-- Packs a planar frame. -/
def packKernel : KernelDescriptor where
  id := 1
  implements := []
  implementationId := Digest.zero
  conversion := some
    { semanticType := "frame", src := 0, dst := 1, maxInputBytes := 64, maxOutputBytes := 32 }
  target := 0
  inputLayouts := [0]
  outputLayouts := [1]
  resources := ResourceEnvelope.bounded 64 0 1
  determinism := .bitExact
  lowering := "pack"

def packRegistry : KernelRegistry := KernelRegistry.after processBlake3 [.kernel packKernel]

def packRequest : ConversionRequest where
  target := 0
  semanticType := "frame"
  maxBytes := 64
  src := 0
  targets := [1]
  targetMaxBytes := 32

theorem conversionPath_least_pack :
    conversionPath packRegistry packRequest 2 = .ok (some [packKernel], 0) ∧
      ∀ other, packRequest.Admits packRegistry other → pathKey [packKernel] ≤ pathKey other := by
  have hrun : conversionPath packRegistry packRequest 2 = .ok (some [packKernel], 0) := by
    decide +kernel
  have hvalues : packRegistry.kernels.values = [packKernel] := by decide +kernel
  have hknown : ∀ kernel, packRequest.Uses packRegistry kernel → ∀ conversion,
      kernel.conversion = some conversion → conversion.dst.isKnown = true := by
    intro kernel huses conversion hconv
    have hkernel := huses.registered
    rw [hvalues, List.mem_singleton] at hkernel
    rw [hkernel] at hconv
    rw [← Option.some.inj hconv]
    decide
  obtain ⟨found, left, hok, -, hleast⟩ := conversionPath_least ⟨_, rfl⟩ rfl hknown
    (show conversionPath packRegistry packRequest 2 ≠ _ from hrun ▸ nofun)
  have hfound := (Prod.mk.inj (Except.ok.inj (hok.symm.trans hrun))).1
  exact ⟨hrun, (hleast _ hfound).2⟩

end Blut.GraphCore
