import Qine.Space.Coherence

/-!
# The well-known selector

A program finds the magic through a selector it knows beforehand, and `setup_magic` asks for the id that goes
with it. By then the loader has given every loader segment of the executable and of the libraries the least free
id, one after the other. `publishes_iff` says when the id is still free: there are no more than 15 of these
segments.
-/

namespace Qine

open SegmentDescriptor

namespace Space

variable {w w₀ w' : Space} {host : Host} {n : Nat}

/-! ## Loading files -/

/-- The ids below `n` are the used ones. -/
def Filled (n : Nat) (w : Space) : Prop := ∀ j, (w.descriptors.get j).isSome ↔ j < n

theorem filled_fresh : Filled 0 fresh := by
  intro j
  rw [show fresh.descriptors.get j = none from IdMap.get_of_length_le (Nat.zero_le j)]
  simp

/-- The least free id is behind the used ones. -/
theorem createSegmentDescriptor_fills {access : Access} {bits : Bitness} {seg : Nat} (h : Filled n w) (hinv : w.Inv)
    (hseg : seg < w.count) :
    (createSegmentDescriptor access seg bits).Leaves w
      (fun _ w' => Filled (n + 1) w' ∧ w'.Inv ∧ w'.count = w.count) (fun _ _ => True) := by
  refine (createSegmentDescriptor_leaves hinv hseg).mono ?_ (fun _ _ _ => trivial)
  rintro sd w' ⟨-, -, hfree, hmin, hget, hw', hinv'⟩
  have hid : sd.id = n := by
    have hge : ¬ sd.id < n := by
      rw [← h, hfree]
      decide
    have hle : ¬ n < sd.id := by
      intro hlt
      exact Nat.lt_irrefl n ((h n).1 (hmin n hlt))
    omega
  refine ⟨?_, hinv', by rw [hw']; rfl⟩
  intro j
  rw [hget, hid]
  by_cases hj : j = n
  · rw [hj, Function.update_self]
    simp
  · rw [Function.update_of_ne hj, h]
    omega

theorem createDescriptors_fills {hdr : LmfHeader} {l : AbstractLoader} {types : List Access} {si : Nat}
    {info : LoadInfo} {selectors : List (BitVec 16)} (h : Filled n w) (hinv : w.Inv)
    (hseg : ∀ i seg, l.getSegment i = some seg → seg < w.count) :
    (createDescriptors hdr l types si info selectors).Leaves w (fun _ w' => Filled (n + types.length) w')
      (fun _ _ => True) := by
  induction types generalizing n si info selectors w with
  | nil => exact EStateM.leaves_pure h
  | cons type types ih =>
      unfold createDescriptors
      split
      · exact EStateM.leaves_throw trivial
      · next seg hget =>
          refine (createSegmentDescriptor_fills h hinv (hseg si seg hget)).bind ?_
          rintro sd w₁ ⟨h₁, hinv₁, hcount⟩
          have hlength : n + (type :: types).length = n + 1 + types.length := by
            rw [List.length_cons]
            omega
          rw [hlength]
          exact ih h₁ hinv₁ (hcount ▸ hseg)

/-- Every loader segment takes the next id. -/
theorem filled_of_load {f : Lmf} {slib : Bool} {info info' : LoadInfo} (hinv : w₀.Inv) (h : Filled n w₀)
    (hload : (f.load host slib info).run w₀ = .ok info' w) : Filled (n + f.entries.length) w := by
  obtain ⟨_, w₁, _, w₂, hadds, hdescriptors, hseg, hrun, hsame, -⟩ := exists_createDescriptors hinv hload
  have h₁ : Filled n w₁ := by
    intro j
    rw [hdescriptors]
    exact h j
  have h₂ := (createDescriptors_fills h₁ hadds.inv fun i seg hget => (hseg i seg hget).2).of_ok hrun
  have hlength : f.types.length = f.entries.length := List.length_map _
  intro j
  rw [hsame.descriptors, ← hlength]
  exact h₂ j

/-- Files that are loaded into a fresh address space: the executable is at the end of the list, and the libraries
are in front of it, the last one first. -/
inductive Loads : List Lmf → Space → Prop
  | nil : Loads [] fresh
  | load {files : List Lmf} {w : Space} {host : Host} {slib : Bool} {info info' : LoadInfo} {file : List Byte} {f : Lmf}
      {s : Loading} (hfiles : Loads files w) (hparse : Lmf.parse file = .ok f)
      (hrun : (loaderLoad host slib info).run ⟨w, file⟩ = .ok info' s) : Loads (f :: files) s.space

/-- The loader segments of all the files. -/
def segmentsOf (files : List Lmf) : Nat := (files.map fun f => f.entries.length).sum

theorem filled_of_loads {files : List Lmf} (h : Loads files w) : w.Inv ∧ Filled (segmentsOf files) w := by
  induction h with
  | nil => exact ⟨fresh_inv, filled_fresh⟩
  | @load files w host slib info info' file f s _ hparse hrun ih =>
      obtain ⟨f', hparse', hload⟩ := Lmf.load_of_loaderLoad hrun
      cases hparse.symm.trans hparse'
      refine ⟨(adds_of_load ih.1 hload).inv, ?_⟩
      have hsum : segmentsOf (f :: files) = segmentsOf files + f.entries.length := by
        simp [segmentsOf, Nat.add_comm]
      rw [hsum]
      exact filled_of_load ih.1 ih.2 hload

/-! ## Publishing the magic -/

/-- The id of the well-known selector. -/
def wellKnown : Nat := selToId Magic.ptrSelector

/-- The descriptor under which the segment made next is found then. -/
def magicDescriptor (w : Space) : SegmentDescriptor := ⟨wellKnown, .readOnly, w.count, .b32⟩

/-- The id was free, and leads to the segment that was made. -/
def Published (w w' : Space) : Prop :=
  w.descriptors.get wellKnown = none ∧ w'.descriptors.get wellKnown = some w.magicDescriptor

theorem keeps_onSegment {α : Type} {i : Nat} {x : SegM α} : (onSegment i x).Keeps Space.descriptors :=
  EStateM.keeps_zoom fun _ _ => rfl

theorem keeps_reserve {i size : Nat} : (reserve host i size).Keeps Space.descriptors :=
  .bind EStateM.keeps_get fun _ => keeps_onSegment

theorem keeps_storeAt {i offset size : Nat} {bytes : List Byte} :
    (storeAt i offset size bytes).Keeps Space.descriptors := by
  have hpointer : (pointer i offset size).Keeps Space.descriptors := by
    refine .bind EStateM.keeps_get fun w => ?_
    dsimp only
    split
    · exact EStateM.keeps_pure
    · exact EStateM.keeps_throw
  exact .bind hpointer fun _ => EStateM.keeps_modify fun _ => rfl

theorem createSegmentDescriptorAt_leaves {access : Access} {seg id : Nat} {bits : Bitness} :
    (createSegmentDescriptorAt access seg bits id).Leaves w
      (fun _ w' => w.descriptors.get id = none ∧ w'.descriptors.get id = some ⟨id, access, seg, bits⟩)
      (fun _ _ => True) := by
  unfold createSegmentDescriptorAt
  apply EStateM.leaves_get_bind
  split
  · exact EStateM.leaves_throw trivial
  · next t halloc =>
      obtain ⟨-, hfree, rfl⟩ := IdMap.allocExactlyAt_ok halloc
      refine EStateM.leaves_set ⟨hfree, ?_⟩
      show (w.descriptors.emplace id _).get id = _
      rw [IdMap.get_emplace, if_pos rfl]

/-- Until the descriptor is created, the table stays as it is. -/
theorem createMagicPointer_publishes {nbytes : Nat} {shared : Bool} {ptr : List Byte} :
    (StartupInput.createMagicPointer host nbytes shared ptr).Leaves w (fun _ w' => Published w w')
      (fun _ _ => True) := by
  have hkept {x : SpaceM Unit} (hx : x.Keeps Space.descriptors) {f : Unit → SpaceM Unit}
      (hf : ∀ w₁, w₁.descriptors = w.descriptors → (f ⟨⟩).Leaves w₁ (fun _ w' => Published w w') (fun _ _ => True))
      (w₁ : Space) (h₁ : w₁.descriptors = w.descriptors) :
      (x >>= f).Leaves w₁ (fun _ w' => Published w w') (fun _ _ => True) :=
    ((hx w₁).mono (fun _ _ h => h) (fun _ _ _ => trivial)).bind fun _ w₂ h₂ => hf w₂ (h₂.trans h₁)
  have hcreate (w₁ : Space) (h₁ : w₁.descriptors = w.descriptors) :
      (createSegmentDescriptorAt .readOnly w.count .b32 (selToId Magic.ptrSelector)).Leaves w₁
        (fun _ w' => Published w w') (fun _ _ => True) := by
    refine createSegmentDescriptorAt_leaves.mono ?_ (fun _ _ _ => trivial)
    rintro _ w' ⟨hfree, hget⟩
    exact ⟨h₁ ▸ hfree, hget⟩
  unfold StartupInput.createMagicPointer allocateSegment
  simp only [bind_assoc, pure_bind]
  apply EStateM.leaves_get_bind
  refine (EStateM.leaves_set (Q := fun _ w₁ => w₁.descriptors = w.descriptors) rfl).bind fun _ w₁ h₁ => ?_
  refine hkept keeps_reserve (hkept keeps_onSegment ?_) w₁ h₁
  cases shared with
  | false => exact hkept keeps_storeAt hcreate
  | true => exact hkept keeps_onSegment (hkept keeps_storeAt hcreate)

end Space

namespace StartupInput

open Starting Space

variable {host : Host} {dataSd : SegmentDescriptor} {s : Starting} {i : StartupInput}

/-- What `create_segment_descriptor` and `create_segment_descriptor_at` go by. -/
def tables (s : Starting) : IdMap SegmentDescriptor × Nat := (s.space.descriptors, s.space.count)

theorem keeps_onSbrk {α : Type} (x : SbrkM α) : (onSbrk x).Keeps tables := EStateM.keeps_zoom fun _ _ => rfl

theorem placeMagic_publishes {nbytes : Nat} {shared : Bool} {ptr : Nat → List Byte} :
    (placeMagic host nbytes shared ptr).Leaves s (fun _ s' => Published s.space s'.space) (fun _ _ => True) := by
  have hkept : (onSbrk (StartupSbrk.align host) >>= fun _ => onSbrk (StartupSbrk.alloc host Magic.size) >>= fun _ =>
      onSbrk StartupSbrk.ptr).Keeps tables :=
    .bind (keeps_onSbrk _) fun _ => .bind (keeps_onSbrk _) fun _ => keeps_onSbrk _
  have hplace : placeMagic host nbytes shared ptr =
      ((onSbrk (StartupSbrk.align host) >>= fun _ => onSbrk (StartupSbrk.alloc host Magic.size) >>= fun _ =>
        onSbrk StartupSbrk.ptr) >>= fun magic =>
          inSpace (createMagicPointer host nbytes shared (ptr magic)) >>= fun _ => pure magic) := by
    unfold placeMagic
    simp only [bind_assoc]
  rw [hplace]
  refine ((hkept s).mono (fun _ _ h => h) (fun _ _ _ => trivial)).bind ?_
  intro magic s₁ h₁
  have hdescriptors : s₁.space.descriptors = s.space.descriptors := congrArg Prod.fst h₁
  have hcount : s₁.space.count = s.space.count := congrArg Prod.snd h₁
  have hpublishes : (inSpace (createMagicPointer host nbytes shared (ptr magic))).Leaves s₁
      (fun _ s' => Published s₁.space s'.space) (fun _ _ => True) :=
    EStateM.leaves_zoom createMagicPointer_publishes
  refine hpublishes.bind ?_
  rintro _ s₂ ⟨hfree, hget⟩
  refine EStateM.leaves_pure ⟨hdescriptors ▸ hfree, hget.trans ?_⟩
  rw [magicDescriptor, magicDescriptor, hcount]

/-- What follows only stores. -/
theorem publishes_bind {x : StartM Nat} {f : Nat → StartM Unit}
    (hx : x.Leaves s (fun _ s' => Published s.space s'.space) (fun _ _ => True)) (hf : ∀ a, (f a).Keeps tables) :
    (x >>= f).Leaves s (fun _ s' => Published s.space s'.space) (fun _ _ => True) := by
  refine hx.bind ?_
  rintro a s₁ ⟨hfree, hget⟩
  refine (hf a s₁).mono ?_ (fun _ _ _ => trivial)
  intro _ s₂ h₂
  have hdescriptors : s₂.space.descriptors = s₁.space.descriptors := congrArg Prod.fst h₂
  exact ⟨hfree, hdescriptors ▸ hget⟩

theorem setupMagic_publishes :
    (i.setupMagic host dataSd).Leaves s (fun _ s' => Published s.space s'.space) (fun _ _ => True) :=
  publishes_bind placeMagic_publishes fun _ => .bind (keeps_onSbrk _) fun _ => .bind (keeps_onSbrk _) fun _ =>
    .bind (keeps_onSbrk _) fun _ => keeps_onSbrk _

theorem setupMagic16_publishes :
    (i.setupMagic16 host dataSd).Leaves s (fun _ s' => Published s.space s'.space) (fun _ _ => True) :=
  publishes_bind placeMagic_publishes fun _ => .bind (EStateM.keeps_forM fun _ _ => keeps_onSbrk _) fun _ =>
    .bind (keeps_onSbrk _) fun _ => .bind (keeps_onSbrk _) fun _ => .bind (keeps_onSbrk _) fun _ => keeps_onSbrk _

end StartupInput

namespace Space

/-! ## When the id is free -/

/-- The id of the well-known selector can be had, and the selector leads to the pointer to the magic once the magic
is set up. -/
structure Publishes (w : Space) : Prop where
  free : w.descriptors.get wellKnown = none
  creates : ∀ w' access seg bits, w'.descriptors = w.descriptors →
    (createSegmentDescriptorAt access seg bits wellKnown).returns w' = true
  leads : ∀ (host : Host) (i : StartupInput) dataSd (s s' : Starting), s.space = w →
    (i.setupMagic host dataSd).run s = .ok ⟨⟩ s' ∨ (i.setupMagic16 host dataSd).run s = .ok ⟨⟩ s' →
    s'.space.descriptorBySelector Magic.ptrSelector = some w.magicDescriptor

/-- The id is free after the executable and the libraries have been loaded if and only if they have no more than 15
loader segments together. If they have more, setting up the magic never succeeds. -/
theorem publishes_iff {files : List Lmf} (h : Loads files w) :
    (w.Publishes ↔ segmentsOf files ≤ 15) ∧
    (¬ w.Publishes → ∀ (host : Host) (i : StartupInput) dataSd (s : Starting), s.space = w →
      (i.setupMagic host dataSd).returns s = false ∧ (i.setupMagic16 host dataSd).returns s = false) := by
  obtain ⟨hinv, hfilled⟩ := filled_of_loads h
  have hfree : w.descriptors.get wellKnown = none ↔ segmentsOf files ≤ 15 := by
    rw [← Option.not_isSome_iff_eq_none, hfilled]
    exact Nat.not_lt
  have hpublishes : w.Publishes ↔ w.descriptors.get wellKnown = none := by
    refine ⟨Publishes.free, fun hnone => ⟨hnone, ?_, ?_⟩⟩
    · intro w' access seg bits hw'
      have hmax : ¬ w'.descriptors.max ≤ wellKnown := by
        rw [hw', hinv.table.max_eq]
        decide
      have halloc : ∀ mk, w'.descriptors.allocExactlyAt wellKnown mk =
          .ok (w'.descriptors.emplace wellKnown (mk wellKnown)) := by
        intro mk
        rw [IdMap.allocExactlyAt, if_neg hmax, hw', hnone]
        rfl
      unfold createSegmentDescriptorAt
      rw [EStateM.returns_get_bind, halloc]
      rfl
    · rintro host i dataSd s s' rfl (hrun | hrun)
      · exact (StartupInput.setupMagic_publishes.of_ok hrun).2
      · exact (StartupInput.setupMagic16_publishes.of_ok hrun).2
  refine ⟨hpublishes.trans hfree, ?_⟩
  rintro htaken host i dataSd s rfl
  rw [hpublishes] at htaken
  refine ⟨?_, ?_⟩
  · rw [Bool.eq_false_iff, Ne, EStateM.returns_iff]
    rintro ⟨_, s', hrun⟩
    exact htaken (StartupInput.setupMagic_publishes.of_ok hrun).1
  · rw [Bool.eq_false_iff, Ne, EStateM.returns_iff]
    rintro ⟨_, s', hrun⟩
    exact htaken (StartupInput.setupMagic16_publishes.of_ok hrun).1

/-- A flat executable of `n + 1` loader segments. -/
def wideFile (n : Nat) : List Byte :=
  headerBytes (n + 1) 0x12 0 0 0 0x1000 0x1000 0x2000 ++ leBytes 4 0x20000010 ++
    (List.replicate n (leBytes 4 8)).flatten ++ recordBytes LmfRecord.imageEnd []

theorem loads_wideFile {n k : Nat}
    (hreturns : (loaderLoad Host.roomy false .init).returns ⟨fresh, wideFile n⟩ = true)
    (hentries : (Lmf.parse (wideFile n)).toOption.map (fun f => f.entries.length) = some k) :
    ∃ f w, Lmf.parse (wideFile n) = .ok f ∧ Loads [f] w ∧ segmentsOf [f] = k := by
  obtain ⟨info, s, hrun⟩ := EStateM.returns_iff.mp hreturns
  obtain ⟨f, hparse, -⟩ := Lmf.load_of_loaderLoad hrun
  have hlength : f.entries.length = k := Lmf.eq_of_parse hparse hentries
  refine ⟨f, s.space, hparse, .load .nil hparse hrun, ?_⟩
  rw [segmentsOf, List.map_singleton, List.sum_singleton, hlength]

theorem publishes_wideFile : ∃ f w, Lmf.parse (wideFile 14) = .ok f ∧ Loads [f] w ∧ w.Publishes := by
  obtain ⟨f, w, hparse, hloads, hsegments⟩ := loads_wideFile (n := 14) (k := 15) (by decide +kernel) (by decide +kernel)
  exact ⟨f, w, hparse, hloads, (publishes_iff hloads).1.mpr (Nat.le_of_eq hsegments)⟩

/-- With one more segment, the id is taken. -/
theorem not_publishes_wideFile : ∃ f w, Lmf.parse (wideFile 15) = .ok f ∧ Loads [f] w ∧ ¬ w.Publishes := by
  obtain ⟨f, w, hparse, hloads, hsegments⟩ := loads_wideFile (n := 15) (k := 16) (by decide +kernel) (by decide +kernel)
  refine ⟨f, w, hparse, hloads, fun hpublishes => ?_⟩
  have htaken := ((filled_of_loads hloads).2 wellKnown).2 (hsegments ▸ by decide)
  rw [hpublishes.free] at htaken
  cases htaken

end Space
end Qine
