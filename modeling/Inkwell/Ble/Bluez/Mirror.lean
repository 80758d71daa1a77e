import Inkwell.Ble.Bluez.Objects
import Inkwell.Library.Replica

namespace Inkwell.Bluez
open List Function
open Library (Mirror Change overlay followAll)

def kept : Interface → Property → Option Variant → Variant
  | .adapter, .powered, some (.boolean b) => .boolean b
  | .adapter, .powered, _ => .boolean true
  | .adapter, .discovering, some (.boolean b) => .boolean b
  | .adapter, .discovering, _ => .boolean false
  | .characteristic, .uuid, some (.text s) => .text (strCopy uuidLen s)
  | .characteristic, .uuid, _ => .text []
  | .device, .address, some (.text s) => .text (strCopy addressMax s)
  | .device, .address, _ => .text []
  | .device, .name, some (.text s) => .text (strCopy nameMax s)
  | .device, .name, _ => .text []
  | .device, .aliasName, some (.text s) => .text (strCopy nameMax s)
  | .device, .aliasName, _ => .text []
  | .device, .paired, some (.boolean b) => .boolean b
  | .device, .paired, _ => .boolean false
  | .device, .rssi, some (.int16 n) => .int16 n
  | .device, .rssi, _ => .other
  | .device, .uuids, some (.array texts) => .array (texts.map (strCopy uuidLen))
  | .device, .uuids, _ => .array []
  | _, _, _ => .other

def Typed : Interface → Property → Variant → Prop
  | .adapter, .powered, .boolean _ => True
  | .adapter, .powered, _ => False
  | .adapter, .discovering, .boolean _ => True
  | .adapter, .discovering, _ => False
  | .characteristic, .uuid, .text _ => True
  | .characteristic, .uuid, _ => False
  | .device, .address, .text _ => True
  | .device, .address, _ => False
  | .device, .name, .text _ => True
  | .device, .name, _ => False
  | .device, .aliasName, .text _ => True
  | .device, .aliasName, _ => False
  | .device, .paired, .boolean _ => True
  | .device, .paired, _ => False
  | .device, .rssi, .int16 _ => True
  | .device, .rssi, _ => False
  | .device, .uuids, .array _ => True
  | .device, .uuids, _ => False
  | _, _, _ => True

def Mandatory : Interface → Property → Prop
  | .adapter, .powered | .adapter, .discovering | .device, .address | .characteristic, .uuid => True
  | _, _ => False

def Object.shown (o : Object) : Interface → Property → Variant
  | .adapter, .powered => .boolean (!o.poweredOff)
  | .adapter, .discovering => .boolean o.discovering
  | .characteristic, .uuid => .text o.uuid
  | .device, .address => .text o.address
  | .device, .name => .text o.name
  | .device, .aliasName => .text o.aliasName
  | .device, .paired => .boolean o.paired
  | .device, .rssi => if o.hasRssi then .int16 o.rssi else .other
  | .device, .uuids => .array o.services
  | _, _ => .other

def blank (i : Interface) (n : Property) : Variant := kept i n none

def Object.mirror (o : Object) : Mirror Interface Property Variant :=
  ⟨{i | o.interfaces i}, o.shown⟩

def copied (objects : List Object) (path : Text) : Option (Mirror Interface Property Variant) :=
  (objectFind objects path).map Object.mirror

def listed (i : Interface) : Properties → Property → Option Variant
  | [], _ => none
  | (m, v) :: properties, n =>
    (listed i properties n).or (if m = n then some (kept i m (some v)) else none)

def keptOf (interfaces : Interfaces) : List (Interface × Properties) :=
  interfaces.filterMap fun entry => entry.1.map (·, entry.2)

def adds (interfaces : Interfaces) : List (Change Interface Property Variant) :=
  (keptOf interfaces).map fun entry => .add entry.1 (listed entry.1 entry.2)

def revised (i : Interface) (changed : Properties) (invalidated : List Property) (n : Property) :
    Option Variant :=
  if n ∈ invalidated then some (kept i n none) else listed i changed n

def TreeSignal.changesAt (path : Text) : TreeSignal → List (Change Interface Property Variant)
  | .ownerChanged _ _ => []
  | .interfacesAdded path' interfaces => if path' = path then adds interfaces else []
  | .interfacesRemoved path' names => if path' = path then (names.filterMap id).map .remove else []
  | .propertiesChanged path' i changed invalidated =>
    if path' = path ∧ i ≠ .characteristic then [.update i (revised i changed invalidated)] else []

section Object
variable {o : Object}

structure Object.Revised (o o' : Object) (i : Interface) (values : Property → Option Variant) :
    Prop where
  path : o'.path = o.path
  interfaces : o'.interfaces = o.interfaces
  shown : o'.shown = update o.shown i (overlay values (o.shown i))

theorem Object.Revised.bare (h : o.Revised o' i values) : o'.bare = o.bare := by
  rw [Object.bare, h.interfaces, Object.bare]

theorem setServices_eq (h : (o.setServices memory texts).2) :
    (o.setServices memory texts).1 = { o with services := texts.map (strCopy uuidLen) } := by
  unfold Object.setServices at h ⊢
  split at h
  · rename_i hempty
    rw [if_pos hempty, hempty]
    rfl
  · rename_i hsome
    split at h
    · rename_i hmemory
      rw [if_neg hsome, if_pos hmemory]
    · cases h

def single (n : Property) (w : Variant) (m : Property) : Option Variant :=
  if n = m then some w else none

theorem revised_single (hpath : o'.path = o.path) (hinterfaces : o'.interfaces = o.interfaces)
    (hsame : o'.shown i n = w) (hother : ∀ j m, (j, m) ≠ (i, n) → o'.shown j m = o.shown j m) :
    o.Revised o' i (single n w) := by
  refine ⟨hpath, hinterfaces, funext fun j => funext fun m => ?_⟩
  by_cases hj : j = i
  · subst hj
    rw [update_self, overlay, single]
    by_cases hm : n = m
    · subst hm
      rw [if_pos rfl, Option.getD_some, hsame]
    · rw [if_neg hm, Option.getD_none]
      exact hother j m fun heq => hm (Prod.mk.inj heq).2.symm
  · rw [update_of_ne hj]
    exact hother j m fun heq => hj (Prod.mk.inj heq).1

theorem revised_same (h : w = o.shown i n) : o.Revised o i (single n w) :=
  revised_single rfl rfl h.symm fun _ _ _ => rfl

theorem setProperty_revised (htyped : Typed i n v) (h : (o.setProperty memory i n v).2) :
    o.Revised (o.setProperty memory i n v).1 i (single n (kept i n (some v))) := by
  cases i <;> cases n <;> cases v <;> first
    | exact htyped.elim
    | exact revised_same rfl
    | refine revised_single rfl rfl (by simp [Object.setProperty, Object.shown, kept]) ?_
      intro j m hne
      cases j <;> cases m <;> first | rfl | exact absurd rfl hne
    | change o.Revised (o.setServices memory _).1 _ _
      rw [setServices_eq h]
      refine revised_single rfl rfl rfl ?_
      intro j m hne
      cases j <;> cases m <;> first | rfl | exact absurd rfl hne

theorem unsetProperty_revised (o : Object) (h : ¬ Mandatory i n) :
    o.Revised (o.unsetProperty i n) i (single n (kept i n none)) := by
  cases i <;> cases n <;> first
    | exact absurd trivial h
    | exact revised_same rfl
    | refine revised_single rfl rfl rfl ?_
      intro j m hne
      cases j <;> cases m <;> first | rfl | exact absurd rfl hne

theorem overlay_overlay : overlay u' (overlay u f) = overlay (fun n => (u' n).or (u n)) f := by
  funext n
  change (u' n).getD ((u n).getD (f n)) = ((u' n).or (u n)).getD (f n)
  cases u' n <;> rfl

theorem Object.Revised.trans (h : o.Revised o' i u) (h' : o'.Revised o'' i u') :
    o.Revised o'' i fun n => (u' n).or (u n) := by
  refine ⟨h'.path.trans h.path, h'.interfaces.trans h.interfaces, ?_⟩
  rw [h'.shown, h.shown, update_self, update_idem, overlay_overlay]

theorem Object.Revised.refl : o.Revised o i fun _ => none :=
  ⟨rfl, rfl, (update_eq_self i o.shown).symm⟩

theorem setProperties_revised (htyped : ∀ n v, (n, v) ∈ properties → Typed i n v)
    (h : o.setProperties memory i properties = (o', true)) :
    o.Revised o' i (listed i properties) := by
  induction properties generalizing o with
  | nil =>
    cases h
    exact .refl
  | cons property _ ih =>
    obtain ⟨n, v⟩ := property
    simp only [Object.setProperties, Prod.mk.injEq, Bool.and_eq_true] at h
    obtain ⟨heq, hset, hrest⟩ := h
    have hfirst := setProperty_revised (htyped n v (mem_cons_self)) hset
    exact hfirst.trans (ih (fun n v hmem => htyped n v (mem_cons_of_mem _ hmem))
      (Prod.ext heq hrest))

theorem unsetProperties_revised (o : Object) (h : ∀ n ∈ names, ¬ Mandatory i n) :
    o.Revised (o.unsetProperties i names) i fun n => if n ∈ names then some (kept i n none)
    else none := by
  induction names generalizing o with
  | nil => exact .refl
  | cons n names ih =>
    have hfirst := unsetProperty_revised o (h n (mem_cons_self))
    have hrest := ih (o.unsetProperty i n) fun n hmem => h n (mem_cons_of_mem _ hmem)
    have hboth := hfirst.trans hrest
    have heq : (fun m => (if m ∈ names then some (kept i m none) else none).or
        (single n (kept i n none) m)) =
        fun m => if m ∈ n :: names then some (kept i m none) else none := by
      funext m
      by_cases hmem : m ∈ names
      · simp [hmem]
      · by_cases hm : n = m
        · subst hm
          simp [single, hmem]
        · simp [single, hmem, hm, Ne.symm hm]
    rw [heq] at hboth
    exact hboth

theorem Object.Revised.changed (h : o.Revised o' i (listed i properties))
    (hnames : ∀ n ∈ names, ¬ Mandatory i n) :
    o.Revised (o'.unsetProperties i names) i (revised i properties names) := by
  have hboth := h.trans (unsetProperties_revised o' hnames)
  have heq :
      (fun n => (if n ∈ names then some (kept i n none) else none).or (listed i properties n)) =
      revised i properties names := by
    funext n
    unfold revised
    split <;> rfl
  rw [heq] at hboth
  exact hboth

end Object

structure Tidy (objects : List Object) : Prop where
  paths : (objects.map Object.path).Nodup
  used : ∀ object ∈ objects, object.bare = false

theorem Tidy.nil : Tidy [] := ⟨nodup_nil, nofun⟩

theorem objectFind_path (h : objectFind objects path = some object) : object.path = path := by
  have hpath := find?_some h
  exact of_decide_eq_true hpath

theorem objectFind_mem (h : objectFind objects path = some object) : object ∈ objects :=
  mem_of_find?_eq_some h

@[simp] theorem objectFind_cons : objectFind (first :: objects) path =
      if first.path = path then some first else objectFind objects path := by
  unfold objectFind
  by_cases h : first.path = path <;> simp [h]

theorem objectFind_put : objectFind (objectPut object objects) path =
      if object.path = path then some object else objectFind objects path := by
  induction objects with
  | nil => simp [objectPut]
  | cons first _ ih =>
    unfold objectPut
    by_cases hfirst : first.path = object.path
    · rw [if_pos hfirst, objectFind_cons, objectFind_cons, hfirst]
      split <;> rfl
    · rw [if_neg hfirst, objectFind_cons, objectFind_cons, ih]
      by_cases hpath : first.path = path
      · have hne : object.path ≠ path := fun heq => hfirst (hpath.trans heq.symm)
        rw [if_pos hpath, if_neg hne, if_pos hpath]
      · rw [if_neg hpath, if_neg hpath]

theorem objectPut_mem (h : o ∈ objectPut object objects) : o = object ∨ o ∈ objects := by
  induction objects with
  | nil => exact .inl (mem_singleton.mp h)
  | cons _ _ ih =>
    unfold objectPut at h
    split at h
    · obtain heq | hmem := mem_cons.mp h
      · exact .inl heq
      · exact .inr (mem_cons_of_mem _ hmem)
    · obtain heq | hmem := mem_cons.mp h
      · exact .inr (heq ▸ mem_cons_self)
      · exact (ih hmem).imp_right (mem_cons_of_mem _)

theorem Tidy.put (h : Tidy objects) (hused : object.bare = false) :
    Tidy (objectPut object objects) := by
  refine ⟨?_, fun o hmem => ?_⟩
  · have hpaths := h.paths
    clear h
    induction objects with
    | nil => simp [objectPut]
    | cons _ _ ih =>
      obtain ⟨hnew, hrest⟩ := nodup_cons.mp hpaths
      unfold objectPut
      split
      · rename_i hfirst
        rw [map_cons, ← hfirst]
        exact hpaths
      · rename_i hfirst
        refine nodup_cons.mpr ⟨fun hmem => ?_, ih hrest⟩
        obtain ⟨o, ho, hpath⟩ := mem_map.mp hmem
        obtain rfl | hold := objectPut_mem ho
        · exact hfirst hpath.symm
        · exact hnew (hpath ▸ mem_map_of_mem hold)
  · obtain rfl | hold := objectPut_mem hmem
    · exact hused
    · exact h.used o hold

theorem Tidy.remove (h : Tidy objects) : Tidy (objectRemove objects path) := by
  refine ⟨?_, fun o hmem => h.used o (mem_of_mem_eraseP hmem)⟩
  exact h.paths.sublist (List.Sublist.map _ eraseP_sublist)

theorem objectFind_remove (h : Tidy objects) : objectFind (objectRemove objects path) path' =
      if path = path' then none else objectFind objects path' := by
  have hpaths := h.paths
  clear h
  induction objects with
  | nil => simp [objectRemove, objectFind]
  | cons first _ ih =>
    obtain ⟨hnew, hrest⟩ := nodup_cons.mp hpaths
    unfold objectRemove
    by_cases hfirst : first.path = path
    · rw [eraseP_cons_of_pos (by simpa using hfirst), objectFind_cons]
      by_cases hpath : path = path'
      · rw [if_pos hpath]
        refine find?_eq_none.mpr fun o hmem heq => hnew ?_
        rw [hfirst, hpath, ← of_decide_eq_true heq]
        exact mem_map_of_mem hmem
      · rw [if_neg hpath, if_neg fun heq => hpath (hfirst.symm.trans heq)]
    · rw [eraseP_cons_of_neg (by simpa using hfirst), objectFind_cons, objectFind_cons]
      have hold := ih hrest
      unfold objectRemove at hold
      rw [hold]
      by_cases hpath : path = path'
      · subst hpath
        rw [if_neg hfirst, if_pos rfl, if_pos rfl]
      · rw [if_neg hpath, if_neg hpath]

theorem copied_put : copied (objectPut object objects) path =
      if object.path = path then some object.mirror else copied objects path := by
  rw [copied, objectFind_put]
  split <;> rfl

theorem copied_remove (h : Tidy objects) :
    copied (objectRemove objects path) path' =
      if path = path' then none else copied objects path' := by
  rw [copied, objectFind_remove h]
  split <;> rfl

/-- What is kept of the object at a path follows these changes, and that of the others stays. -/
structure Tracks (objects objects' : List Object) (path : Text)
    (changes : List (Change Interface Property Variant)) : Prop where
  tidy : Tidy objects'
  copied : ∀ path', copied objects' path' =
    followAll blank (if path = path' then changes else []) (copied objects path')

theorem Tracks.of (htidy : Tidy objects')
    (hsame : Bluez.copied objects' path = followAll blank changes (Bluez.copied objects path))
    (hother : ∀ path', path ≠ path' → Bluez.copied objects' path' = Bluez.copied objects path') :
    Tracks objects objects' path changes := by
  refine ⟨htidy, fun path' => ?_⟩
  by_cases hpath : path = path'
  · subst hpath
    rw [if_pos rfl]
    exact hsame
  · rw [if_neg hpath]
    exact hother path' hpath

theorem Tracks.same (htidy : Tidy objects)
    (h : followAll blank changes (Bluez.copied objects path) = Bluez.copied objects path) :
    Tracks objects objects path changes :=
  .of htidy h.symm fun _ _ => rfl

theorem Tracks.put (htidy : Tidy objects) (hused : object.bare = false) (hpath : object.path = path)
    (h : some object.mirror = followAll blank changes (Bluez.copied objects path)) :
    Tracks objects (objectPut object objects) path changes := by
  refine .of (htidy.put hused) ?_ fun path' hne => ?_
  · rw [copied_put, if_pos hpath]
    exact h
  · rw [copied_put, hpath, if_neg hne]

theorem mirror_new : ({ path } : Object).mirror = ⟨∅, blank⟩ := by
  have hshown : ({ path } : Object).shown = blank := by
    funext i n
    cases i <;> cases n <;> rfl
  unfold Object.mirror
  congr 1
  exact Set.eq_empty_of_forall_notMem fun _ => nofun

theorem mirror_give (object : Object) :
    (object.give i).mirror = ⟨insert i object.mirror.kinds, object.shown⟩ := by
  unfold Object.mirror
  congr 1
  ext j
  by_cases hj : j = i
  · subst hj
    simp [Object.give]
  · simp [Object.give, hj]

theorem revised_mirror {o o' : Object} (h : o.Revised o' i values) :
    o'.mirror =
      ⟨o.mirror.kinds, update o.mirror.values i (overlay values (o.mirror.values i))⟩ := by
  unfold Object.mirror
  rw [h.shown, h.interfaces]

theorem give_bare (object : Object) : (object.give i).bare = false := by
  cases i <;> simp [Object.bare, Object.give]

theorem objectAdd_spec (hpath : path.length < handleMax)
    (h : objectAdd memory objects path = some object) :
    object.path = path ∧ object.mirror = (copied objects path).getD ⟨∅, blank⟩ := by
  unfold objectAdd at h
  unfold copied
  split at h
  · rename_i hfound
    cases h
    rw [hfound]
    exact ⟨objectFind_path hfound, rfl⟩
  · rename_i hnone
    split at h
    · cases h
      have hcopy : strCopy handleMax path = path := take_of_length_le (by omega)
      rw [hnone]
      exact ⟨hcopy, mirror_new⟩
    · cases h

def TypedAll (interfaces : Interfaces) : Prop :=
  ∀ i properties, (i, properties) ∈ keptOf interfaces → ∀ n v, (n, v) ∈ properties → Typed i n v

theorem addEach_follows (htidy : Tidy objects) (hpath : path.length < handleMax)
    (htyped : TypedAll interfaces) (h : addEach memory path objects interfaces = (objects', true)) :
    Tracks objects objects' path (adds interfaces) := by
  induction interfaces generalizing objects with
  | nil =>
    cases h
    exact .same htidy rfl
  | cons entry _ ih =>
    obtain ⟨_ | i, properties⟩ := entry
    · exact ih htidy htyped h
    · unfold addEach at h
      split at h
      · cases h
      · rename_i object hadd
        simp only [Prod.mk.injEq, Bool.and_eq_true] at h
        obtain ⟨hobjects, hkept, hrest⟩ := h
        obtain ⟨hobject, hmirror⟩ := objectAdd_spec hpath hadd
        have hrevised :
            (object.give i).Revised ((object.give i).setProperties memory i properties).1 i
            (listed i properties) :=
          setProperties_revised (htyped i properties (mem_cons_self)) (Prod.ext rfl hkept)
        have hfollow : some ((object.give i).setProperties memory i properties).1.mirror =
            (Change.add i (listed i properties)).follow blank (copied objects path) := by
          rw [revised_mirror hrevised, mirror_give]
          simp only [Change.follow, ← hmirror]
          rfl
        have hfirst : Tracks objects _ path [.add i (listed i properties)] := .put htidy
          (hrevised.bare.trans (give_bare object)) (hrevised.path.trans hobject) hfollow
        have hlast := ih hfirst.tidy (fun j ps hmem => htyped j ps (mem_cons_of_mem _ hmem))
          (Prod.ext hobjects hrest)
        refine .of hlast.tidy ?_ fun path' hne => ?_
        · rw [hlast.copied, hfirst.copied, if_pos rfl, if_pos rfl]
          rfl
        · rw [hlast.copied, hfirst.copied, if_neg hne, if_neg hne]
          rfl

theorem addInterfaces_follows (htidy : Tidy objects)
    (hpath : keptOf interfaces ≠ [] → path.length < handleMax) (htyped : TypedAll interfaces)
    (h : objectsAddInterfaces memory objects path interfaces = (objects', true)) :
    Tracks objects objects' path (adds interfaces) := by
  unfold objectsAddInterfaces at h
  split at h
  · rename_i hlong
    cases h
    have hnone : keptOf interfaces = [] := by
      by_contra hsome
      exact absurd (hpath hsome) (not_lt.mpr hlong)
    refine .same htidy ?_
    rw [adds, hnone]
    rfl
  · rename_i hshort
    exact addEach_follows htidy (not_le.mp hshort) htyped h

theorem mirror_lose (object : Object) :
    (object.lose i).mirror = ⟨object.mirror.kinds \ {i}, object.shown⟩ := by
  unfold Object.mirror
  congr 1
  ext j
  by_cases hj : j = i
  · subst hj
    simp [Object.lose]
  · simp [Object.lose, hj]

theorem bare_iff (object : Object) : object.bare ↔ object.mirror.kinds = ∅ := by
  unfold Object.bare Object.mirror
  rw [Set.eq_empty_iff_forall_notMem]
  constructor
  · intro _ i
    cases i <;> simp_all
  · simp_all

theorem lose_bare (object : Object) (h : object.bare) : (object.lose i).bare := by
  rw [bare_iff] at h ⊢
  rw [mirror_lose, h, Set.empty_sdiff]

theorem loseAll_bare (names : List Interface) (object : Object) (h : object.bare) :
    (names.foldl Object.lose object).bare := by
  induction names generalizing object with
  | nil => exact h
  | cons i _ ih => exact ih _ (lose_bare object h)

theorem follow_none (names : List Interface) : followAll blank (names.map .remove) none = none := by
  induction names with
  | nil => rfl
  | cons i _ ih => exact ih

theorem loseAll_follows (names : List Interface) (object : Object) (h : object.bare = false) :
    followAll blank (names.map .remove) (some object.mirror) =
      if (names.foldl Object.lose object).bare then none
      else some (names.foldl Object.lose object).mirror := by
  induction names generalizing object with
  | nil =>
    rw [foldl_nil, h]
    rfl
  | cons i names ih =>
    have hfollow : (Change.remove i).follow blank (some object.mirror) =
        if (object.lose i).bare then none else some (object.lose i).mirror := by
      simp only [Change.follow, Option.bind_some, bare_iff, mirror_lose]
      rfl
    change followAll blank (names.map .remove)
      ((Change.remove i).follow blank (some object.mirror)) = _
    rw [hfollow, foldl_cons]
    cases hbare : (object.lose i).bare with
    | true =>
      rw [if_pos rfl, follow_none, loseAll_bare names _ hbare]
      rfl
    | false => exact ih _ hbare

theorem loseAll_path (names : List Interface) (object : Object) :
    (names.foldl Object.lose object).path = object.path := by
  induction names generalizing object with
  | nil => rfl
  | cons i _ ih => exact ih (object.lose i)

theorem removeInterfaces_follows (htidy : Tidy objects) (path : Text)
    (names : List (Option Interface)) :
    Tracks objects (objectsRemoveInterfaces objects path names) path
      ((names.filterMap id).map .remove) := by
  unfold objectsRemoveInterfaces
  cases hfound : objectFind objects path with
  | none =>
    refine .same htidy ?_
    rw [copied, hfound]
    exact follow_none _
  | some object =>
    have hfollows :=
      loseAll_follows (names.filterMap id) object (htidy.used object (objectFind_mem hfound))
    have hcopied : copied objects path = some object.mirror := by
      rw [copied, hfound]
      rfl
    rw [← hcopied] at hfollows
    dsimp only
    split
    · rename_i hbare
      refine .of htidy.remove ?_ fun path' hne => ?_
      · rw [copied_remove htidy, if_pos rfl, hfollows, if_pos hbare]
      · rw [copied_remove htidy, if_neg hne]
    · rename_i hbare
      refine .put htidy (Bool.eq_false_of_not_eq_true hbare) ?_ ?_
      · rw [loseAll_path, objectFind_path hfound]
      · rw [hfollows, if_neg hbare]

theorem propertiesChanged_follows {o : Objects} (htidy : Tidy o.objects) (hloaded : o.loaded)
    (htyped : ∀ n v, (n, v) ∈ changed → Typed i n v) (hnames : ∀ n ∈ names, ¬ Mandatory i n)
    (h : (objectsPropertiesChanged memory o path i changed names).loaded) :
    Tracks o.objects (objectsPropertiesChanged memory o path i changed names).objects path
      [.update i (revised i changed names)] := by
  unfold objectsPropertiesChanged at h ⊢
  rw [if_pos hloaded] at h ⊢
  cases hfound : objectFind o.objects path with
  | none =>
    refine .same htidy ?_
    rw [copied, hfound]
    rfl
  | some object =>
    have hcopied : copied o.objects path = some object.mirror := by
      rw [copied, hfound]
      rfl
    rw [hfound] at h
    dsimp only at h ⊢
    split at h
    · rename_i hhas
      rw [if_pos hhas]
      split at h
      · cases h
      · rename_i hset
        have hrevised := (setProperties_revised htyped hset).changed hnames
        have hused := hrevised.bare.trans (htidy.used object (objectFind_mem hfound))
        refine .put htidy hused (hrevised.path.trans (objectFind_path hfound)) ?_
        have hmem : i ∈ object.mirror.kinds := hhas
        rw [hcopied, revised_mirror hrevised]
        simp only [followAll, foldl_cons, foldl_nil, Change.follow, Option.map_some, if_pos hmem]
    · rename_i hhas
      rw [if_neg hhas]
      refine .same htidy ?_
      have hmem : i ∉ object.mirror.kinds := hhas
      rw [hcopied]
      simp only [followAll, foldl_cons, foldl_nil, Change.follow, Option.map_some, if_neg hmem]

/-- A signal such as bluetoothd sends: the values have their types, what is mandatory stays, and
kept paths fit a handle. -/
def TreeSignal.Proper : TreeSignal → Prop
  | .ownerChanged _ _ => True
  | .interfacesAdded path interfaces =>
    (keptOf interfaces ≠ [] → path.length < handleMax) ∧ TypedAll interfaces
  | .interfacesRemoved _ _ => True
  | .propertiesChanged _ i changed invalidated =>
    (∀ n v, (n, v) ∈ changed → Typed i n v) ∧ ∀ n ∈ invalidated, ¬ Mandatory i n

theorem handleSignal_follows (htidy : Tidy o.objects) (hloaded : o.loaded)
    (hproper : signal.Proper) (h : (objectsHandleSignal memory sent o signal).loaded) :
    Tidy (objectsHandleSignal memory sent o signal).objects ∧
      ∀ path, copied (objectsHandleSignal memory sent o signal).objects path =
        followAll blank (signal.changesAt path) (copied o.objects path) := by
  cases signal with
  | ownerChanged bluez owned =>
    cases bluez with
    | true => cases owned <;> cases h
    | false => exact ⟨htidy, fun _ => rfl⟩
  | interfacesAdded =>
    simp only [objectsHandleSignal, hloaded, if_true] at h ⊢
    split at h
    · cases h
    · rename_i hadd
      have htracks := addInterfaces_follows htidy hproper.1 hproper.2 hadd
      exact ⟨htracks.tidy, htracks.copied⟩
  | interfacesRemoved path names =>
    simp only [objectsHandleSignal, hloaded, if_true]
    have htracks := removeInterfaces_follows htidy path names
    exact ⟨htracks.tidy, htracks.copied⟩
  | propertiesChanged _ i =>
    cases i with
    | characteristic =>
      refine ⟨htidy, fun path' => ?_⟩
      simp only [TreeSignal.changesAt, ne_eq, not_true_eq_false, and_false, if_false]
      rfl
    | adapter | device =>
      obtain ⟨htidy', hcopied⟩ := propertiesChanged_follows htidy hloaded hproper.1 hproper.2 h
      refine ⟨htidy', fun path' => ?_⟩
      simp only [TreeSignal.changesAt, ne_eq, reduceCtorEq, not_false_eq_true, and_true]
      exact hcopied path'

def said (entries : List (Text × Interfaces)) (path : Text) : List (Interface × Properties) :=
  (entries.filter fun entry => entry.1 = path).flatMap fun entry => keptOf entry.2

/-- A listing whose values have their types, and whose paths are not longer than a handle. -/
def Listing (entries : List (Text × Interfaces)) : Prop :=
  ∀ path interfaces, (path, interfaces) ∈ entries →
    (keptOf interfaces ≠ [] → path.length < handleMax) ∧ TypedAll interfaces

theorem loadEach_follows (htidy : Tidy objects) (hentries : Listing entries)
    (h : loadEach memory objects entries = (objects', true)) :
    Tidy objects' ∧ ∀ path, copied objects' path =
      followAll blank ((said entries path).map fun entry => .add entry.1 (listed entry.1 entry.2))
        (copied objects path) := by
  induction entries generalizing objects with
  | nil =>
    cases h
    exact ⟨htidy, fun _ => rfl⟩
  | cons entry _ ih =>
    obtain ⟨path, interfaces⟩ := entry
    unfold loadEach at h
    split at h
    · cases h
    · rename_i hadd
      obtain ⟨hpath, htyped⟩ := hentries path interfaces (mem_cons_self)
      obtain ⟨htidy₁, hcopied₁⟩ := addInterfaces_follows htidy hpath htyped hadd
      obtain ⟨htidy', hcopied⟩ :=
        ih htidy₁ (fun p ifs hmem => hentries p ifs (mem_cons_of_mem _ hmem)) h
      refine ⟨htidy', fun path' => ?_⟩
      rw [hcopied, hcopied₁]
      by_cases hsame : path = path'
      · subst hsame
        simp [said, adds, followAll]
      · simp [said, hsame, followAll]

theorem load_follows (hentries : Listing entries)
    (h : (objectsLoad memory o (.tree entries)).loaded) :
    Tidy (objectsLoad memory o (.tree entries)).objects ∧
      ∀ path, copied (objectsLoad memory o (.tree entries)).objects path =
        followAll blank ((said entries path).map fun entry => .add entry.1 (listed entry.1 entry.2))
          none := by
  unfold objectsLoad at h ⊢
  dsimp only at h ⊢
  split at h
  · cases h
  · rename_i hload
    exact loadEach_follows .nil hentries hload

end Inkwell.Bluez
