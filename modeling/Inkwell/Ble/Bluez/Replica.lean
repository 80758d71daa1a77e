import Inkwell.Ble.Bluez.Mirror
import Inkwell.Ble.Bluez.Requests

namespace Inkwell.Bluez
open List
open Library (Change Item Agrees Fitting overlay followAll applyAll)

structure Entry where
  interface : Interface
  values : Property → Option Variant
  typed : ∀ n v, values n = some v → Typed interface n v
  present : ∀ n, Mandatory interface n → values n ≠ none

/-- Every object has at most one of the interfaces, and a path that fits a handle if it has. -/
structure Tree where
  item : Text → Option Entry
  fits : ∀ path, item path ≠ none → path.length < handleMax

def Tree.cell (t : Tree) (path : Text) : Item Interface Property Variant :=
  (t.item path).map fun x => (x.interface, fun n => kept x.interface n (x.values n))

def Lists (properties : Properties) (values : Property → Option Variant) : Prop :=
  ∀ n v, (n, v) ∈ properties ↔ values n = some v

def Tree.Becomes (t : Tree) (path : Text) (x : Option Entry) (t' : Tree) : Prop :=
  t'.item = Function.update t.item path x

/-- A change of the tree, and the signal for it. The UUID of a characteristic does not change. -/
inductive Altered : Tree → TreeSignal → Tree → Prop
  | owner (owned : Bool) : Altered t (.ownerChanged true owned) t'
  | otherOwner (owned : Bool) : Altered t (.ownerChanged false owned) t
  | added (path : Text) (x : Entry) (interfaces : Interfaces) (properties : Properties)
      (hnone : t.item path = none) (hnow : t.Becomes path (some x) t')
      (hkept : keptOf interfaces = [(x.interface, properties)])
      (hlists : Lists properties x.values) :
      Altered t (.interfacesAdded path interfaces) t'
  | addedOther (path : Text) (interfaces : Interfaces) (hkept : keptOf interfaces = []) :
      Altered t (.interfacesAdded path interfaces) t
  | removed (path : Text) (x : Entry) (names : List (Option Interface))
      (hsome : t.item path = some x) (hnow : t.Becomes path none t')
      (hkept : names.filterMap id = [x.interface]) : Altered t (.interfacesRemoved path names) t'
  | removedOther (path : Text) (names : List (Option Interface)) (hkept : names.filterMap id = []) :
      Altered t (.interfacesRemoved path names) t
  | changed (path : Text) (x y : Entry) (properties : Properties)
      (given : Property → Option Variant)
      (invalidated : List Property) (hsome : t.item path = some x)
      (hnow : t.Becomes path (some y) t')
      (hkind : y.interface = x.interface) (hlists : Lists properties given)
      (htyped : ∀ n v, given n = some v → Typed x.interface n v)
      (hvalues : ∀ n, y.values n = if n ∈ invalidated then none else (given n).or (x.values n))
      (hfixed : x.interface = .characteristic → y.values .uuid = x.values .uuid) :
      Altered t (.propertiesChanged path x.interface properties invalidated) t'

def Reports (entries : List (Text × Interfaces)) (t : Tree) : Prop :=
  ∀ path,
    match t.item path with
    | none => said entries path = []
    | some x =>
      ∃ properties, said entries path = [(x.interface, properties)] ∧ Lists properties x.values

theorem listed_eq (h : Lists properties values) :
    listed i properties = fun n => (values n).map fun v => kept i n (some v) := by
  have hlisted : ∀ properties n, (listed i properties n = none ∧ ∀ v, (n, v) ∉ properties) ∨
      ∃ v, (n, v) ∈ properties ∧ listed i properties n = some (kept i n (some v)) := by
    intro properties n
    induction properties with
    | nil => exact .inl ⟨rfl, nofun⟩
    | cons property _ ih =>
      obtain ⟨m, w⟩ := property
      unfold listed
      obtain ⟨hnone, hmem⟩ | ⟨v, hmem, hsome⟩ := ih
      · rw [hnone, Option.none_or]
        by_cases hm : m = n
        · subst hm
          exact .inr ⟨w, mem_cons_self, if_pos rfl⟩
        · refine .inl ⟨if_neg hm, fun v hv => ?_⟩
          obtain heq | hold := mem_cons.mp hv
          · exact hm (Prod.mk.inj heq).1.symm
          · exact hmem v hold
      · rw [hsome, Option.some_or]
        exact .inr ⟨v, mem_cons_of_mem _ hmem, rfl⟩
  funext n
  obtain ⟨hnone, hmem⟩ | ⟨v, hmem, hsome⟩ := hlisted properties n
  · have habsent : values n = none := by
      cases hvalue : values n with
      | none => rfl
      | some v => exact absurd ((h n v).mpr hvalue) (hmem v)
    rw [hnone, habsent]
    rfl
  · rw [hsome, (h n v).mp hmem]
    rfl

theorem overlay_listed (h : Lists properties values) :
    overlay (listed i properties) (blank i) = fun n => kept i n (values n) := by
  rw [listed_eq h]
  funext n
  change ((values n).map fun v => kept i n (some v)).getD (kept i n none) = kept i n (values n)
  cases values n <;> rfl

theorem Tree.Becomes.cell {t t' : Tree} (h : t.Becomes path x t') :
    t'.cell path' =
      if path = path' then x.map fun x => (x.interface, fun n => kept x.interface n (x.values n))
      else t.cell path' := by
  unfold Tree.cell
  rw [show t'.item = _ from h]
  by_cases hpath : path = path'
  · subst hpath
    rw [Function.update_self, if_pos rfl]
  · rw [Function.update_of_ne (Ne.symm hpath), if_neg hpath]

structure Course (s : Item Interface Property Variant)
    (changes : List (Change Interface Property Variant))
    (s' : Item Interface Property Variant) : Prop where
  fits : Fitting blank s changes
  ends : applyAll blank changes s = s'

theorem Course.refl : Course s [] s := ⟨trivial, rfl⟩

theorem Course.trans (h : Course s changes s') (h' : Course s' changes' s'') :
    Course s (changes ++ changes') s'' := by
  refine ⟨h.fits.append (h.ends ▸ h'.fits), ?_⟩
  rw [Library.applyAll_append, h.ends, h'.ends]

theorem Course.one (hfits : change.Fits s) (hends : change.apply blank s = s') :
    Course s [change] s' :=
  ⟨⟨hfits, trivial⟩, hends⟩

theorem cell_some {t : Tree} (h : t.item path = some x) :
    t.cell path = some (x.interface, fun n => kept x.interface n (x.values n)) := by
  rw [Tree.cell, h]
  rfl

theorem overlay_revised {before given after : Property → Option Variant}
    (hlists : Lists properties given)
    (hvalues : ∀ n, after n = if n ∈ invalidated then none else (given n).or (before n)) :
    overlay (revised i properties invalidated) (fun n => kept i n (before n)) =
      fun n => kept i n (after n) := by
  funext n
  rw [hvalues n, overlay, revised, listed_eq hlists]
  by_cases hmem : n ∈ invalidated
  · rw [if_pos hmem, if_pos hmem]
    rfl
  · rw [if_neg hmem, if_neg hmem]
    change ((given n).map fun v => kept i n (some v)).getD (kept i n (before n)) = _
    cases given n <;> rfl

theorem kept_characteristic {values values' : Property → Option Variant}
    (h : values .uuid = values' .uuid) :
    (fun n => kept .characteristic n (values n)) = fun n => kept .characteristic n (values' n) := by
  funext n
  cases n with
  | uuid => rw [h]
  | _ => rfl

theorem Altered.course (h : Altered t signal t')
    (howner : ∀ owned, signal ≠ .ownerChanged true owned) :
    Course (t.cell path) (signal.changesAt path) (t'.cell path) := by
  cases h with
  | owner owned => exact absurd rfl (howner owned)
  | otherOwner => exact .refl
  | added path' x _ _ hnone hnow hkept hlists =>
    rw [hnow.cell]
    simp only [TreeSignal.changesAt, adds, hkept]
    split
    · rename_i hpath
      subst hpath
      refine .one (show t.cell path' = none from ?_) ?_
      · rw [Tree.cell, hnone]
        rfl
      · exact congrArg some (Prod.ext rfl (overlay_listed hlists))
    · exact .refl
  | addedOther _ _ hkept =>
    simp only [TreeSignal.changesAt, adds, hkept, map_nil, ite_self]
    exact .refl
  | removed _ x _ hsome hnow hkept =>
    rw [hnow.cell]
    simp only [TreeSignal.changesAt, hkept]
    split
    · rename_i hpath
      subst hpath
      rw [cell_some hsome]
      exact .one ⟨_, rfl⟩ rfl
    · exact .refl
  | removedOther _ _ hkept =>
    simp only [TreeSignal.changesAt, hkept, map_nil, ite_self]
    exact .refl
  | changed path' x y _ _ _ hsome hnow hkind hlists _ hvalues hfixed =>
    rw [hnow.cell]
    simp only [TreeSignal.changesAt]
    by_cases hpath : path' = path
    · subst hpath
      rw [if_pos rfl, cell_some hsome]
      simp only [Option.map_some, hkind]
      by_cases hkept : x.interface = .characteristic
      · rw [if_neg fun hboth => hboth.2 hkept, hkept, kept_characteristic (hfixed hkept)]
        exact .refl
      · rw [if_pos ⟨trivial, hkept⟩]
        refine .one ⟨_, rfl⟩ ?_
        exact congrArg some (Prod.ext rfl (overlay_revised hlists hvalues))
    · rw [if_neg hpath, if_neg fun hboth => hpath hboth.1]
      exact .refl

theorem Altered.proper (h : Altered t signal t') : signal.Proper := by
  cases h with
  | owner | otherOwner | removed | removedOther => trivial
  | added path x _ _ _ hnow hkept hlists =>
    refine ⟨fun _ => t'.fits path ?_, fun i ps hmem n v hv => ?_⟩
    · rw [show t'.item = _ from hnow, Function.update_self]
      nofun
    · rw [hkept] at hmem
      cases mem_singleton.mp hmem
      exact x.typed n v ((hlists n v).mp hv)
  | addedOther _ _ hkept =>
    refine ⟨fun hsome => absurd hkept hsome, fun i ps hmem => ?_⟩
    rw [hkept] at hmem
    cases hmem
  | changed _ x y _ _ _ _ _ hkind hlists htyped hvalues =>
    refine ⟨fun n v hv => htyped n v ((hlists n v).mp hv), fun n hmem hmandatory => ?_⟩
    refine y.present n (hkind ▸ hmandatory) ?_
    rw [hvalues n, if_pos hmem]

theorem Reports.listing (h : Reports entries t) : Listing entries := by
  intro path interfaces hmem
  have hsaid : ∀ entry ∈ keptOf interfaces, entry ∈ said entries path := by
    intro _ hentry
    refine mem_flatMap.mpr ⟨(path, interfaces), ?_, hentry⟩
    exact mem_filter.mpr ⟨hmem, decide_eq_true rfl⟩
  have hpath := h path
  split at hpath
  · rw [hpath] at hsaid
    have hnone : keptOf interfaces = [] :=
      eq_nil_iff_forall_not_mem.mpr fun e he => nomatch hsaid e he
    refine ⟨fun hsome => absurd hnone hsome, fun i ps hkept => ?_⟩
    rw [hnone] at hkept
    cases hkept
  · rename_i x hx
    obtain ⟨_, heq, hlists⟩ := hpath
    refine ⟨fun _ => t.fits path (hx ▸ nofun), fun i ps hkept n v hv => ?_⟩
    have hone := hsaid _ hkept
    rw [heq] at hone
    cases mem_singleton.mp hone
    exact x.typed n v ((hlists n v).mp hv)

theorem Reports.loaded {o : Objects} (h : Reports entries t)
    (hloaded : (objectsLoad memory o (.tree entries)).loaded) :
    Tidy (objectsLoad memory o (.tree entries)).objects ∧
      ∀ path,
        Agrees (copied (objectsLoad memory o (.tree entries)).objects path) (t.cell path) := by
  obtain ⟨htidy, hcopied⟩ := load_follows h.listing hloaded
  refine ⟨htidy, fun path => ?_⟩
  rw [hcopied]
  have hpath := h path
  split at hpath
  · rename_i hnone
    rw [hpath, Tree.cell, hnone]
    trivial
  · rename_i x hx
    obtain ⟨properties, heq, hlists⟩ := hpath
    rw [heq, cell_some hx, ← overlay_listed hlists]
    have hnone : Agrees none (none : Item Interface Property Variant) := trivial
    change Agrees ((Change.add x.interface (listed x.interface properties)).follow blank none)
      ((Change.add x.interface (listed x.interface properties)).apply blank none)
    exact hnone.step rfl

/-- What a message said when it was sent. A reply to a call for the listing has it, or an error. -/
inductive Said (fetches : List Nat) : Tree → Message → Tree → Prop
  | tree (signal : TreeSignal) (h : Altered t signal t') : Said fetches t (.tree signal) t'
  | reply (serial : Nat) (reply : Reply)
      (h : serial ∈ fetches → ∀ entries, reply = .returned (.tree entries) → Reports entries t) :
      Said fetches t (.reply serial reply) t
  | agent (call : AgentCall) : Said fetches t (.agent call) t
  | value (path : Text) (data : Bytes) : Said fetches t (.value path data) t
  | other : Said fetches t .other t

inductive Trail (fetches : List Nat) : Tree → List Message → Tree → Prop
  | nil (t : Tree) : Trail fetches t [] t
  | cons (h : Said fetches t message t') (hrest : Trail fetches t' queue t'') :
      Trail fetches t (message :: queue) t''

theorem Trail.sent (h : Trail fetches t queue t') (hsaid : Said fetches t' message t'') :
    Trail fetches t (queue ++ [message]) t'' := by
  induction h with
  | nil => exact .cons hsaid (.nil _)
  | cons hfirst _ ih => exact .cons hfirst (ih hsaid)

theorem Trail.fetch (h : Trail fetches t queue t') (hnew : ∀ reply, .reply serial reply ∉ queue) :
    Trail (serial :: fetches) t queue t' := by
  induction h with
  | nil => exact .nil _
  | @cons _ _ _ _ _ hsaid _ ih =>
    refine .cons ?_ (ih fun reply hmem => hnew reply (mem_cons_of_mem _ hmem))
    cases hsaid with
    | tree signal h => exact .tree signal h
    | reply s reply h =>
      refine .reply s reply fun hmem => h ((mem_cons.mp hmem).resolve_left ?_)
      rintro rfl
      exact hnew reply (mem_cons_self)
    | agent call => exact .agent call
    | value path data => exact .value path data
    | other => exact .other

def Message.changesAt (path : Text) : Message → List (Change Interface Property Variant)
  | .tree signal => signal.changesAt path
  | _ => []

def Steady (queue : List Message) : Prop := ∀ owned, .tree (.ownerChanged true owned) ∉ queue

theorem Steady.tail (h : Steady (message :: queue)) : Steady queue :=
  fun owned hmem => h owned (mem_cons_of_mem _ hmem)

theorem Steady.cons (hone : Steady [message]) (h : Steady queue) : Steady (message :: queue) := by
  intro owned hmem
  obtain heq | hold := mem_cons.mp hmem
  · exact hone owned (heq ▸ mem_singleton_self _)
  · exact h owned hold

theorem Said.course (h : Said fetches t message t') (hsteady : Steady [message]) (path : Text) :
    Course (t.cell path) (message.changesAt path) (t'.cell path) := by
  cases h with
  | tree _ h =>
    refine h.course (fun owned heq => ?_)
    exact hsteady owned (heq ▸ mem_singleton_self _)
  | reply | agent | value | other => exact .refl

theorem Trail.course (h : Trail fetches t queue t') (hsteady : Steady queue) (path : Text) :
    Course (t.cell path) (queue.flatMap (Message.changesAt path)) (t'.cell path) := by
  induction h with
  | nil => exact .refl
  | @cons _ message _ _ _ hsaid _ ih =>
    have hone : Steady [message] := fun owned hmem =>
      hsteady owned (mem_singleton.mp hmem ▸ mem_cons_self)
    exact (hsaid.course hone path).trans (ih hsteady.tail)

/-- `queue` are the messages not handled yet, and `fetches` the serials of listings asked for and
not waited for. -/
structure World where
  tree : Tree
  central : Central := {}
  queue : List Message := []
  fetches : List Nat := []

def World.act (w : World) (step : Step) : World :=
  { w with
    central := step.run w.central
    fetches :=
      if (step.run w.central).objects.serial ∈ 0 :: w.fetches then w.fetches
      else (step.run w.central).objects.serial :: w.fetches }

def Step.Own : Step → Prop
  | .receive _ _ _ | .findAdapter _ _ | .list _ _ => False
  | _ => True

/-- A message that is none of bluetoothd's about its tree, such as a reply to another call. -/
def World.Foreign (w : World) : Message → Prop
  | .tree _ => False
  | .reply serial _ => serial < w.central.nextSerial ∧ serial ∉ w.fetches
  | _ => True

/-- What can happen next. A listing that is waited for is that of the tree now; what was sent
before it is still to be handled. -/
inductive Next : World → World → Prop
  | changed (signal : TreeSignal) (tree : Tree) (h : Altered w.tree signal tree) :
      Next w { w with tree, queue := w.queue ++ [.tree signal] }
  | answered (serial : Nat) (entries : List (Text × Interfaces)) (hserial : serial ∈ w.fetches)
      (h : Reports entries w.tree) :
      Next w { w with queue := w.queue ++ [.reply serial (.returned (.tree entries))] }
  | failed (serial : Nat) (name message : Option Text) (hserial : serial ∈ w.fetches) :
      Next w { w with queue := w.queue ++ [.reply serial (.error name message)] }
  | sent (message : Message) (h : w.Foreign message) :
      Next w { w with queue := w.queue ++ [message] }
  | handled (message : Message) (queue : List Message) (memory send : Bool)
      (hopened : w.central.opened) (h : w.queue = message :: queue) :
      Next w (World.act { w with queue } (.receive message memory send))
  | fetched (entries : List (Text × Interfaces)) (memory : Bool) (h : Reports entries w.tree) :
      Next w (w.act (.list (some (.tree entries)) memory))
  | fetchedAdapter (entries : List (Text × Interfaces)) (memory : Bool)
      (h : Reports entries w.tree) :
      Next w (w.act (.findAdapter (some (.tree entries)) memory))
  | unfetched (memory : Bool) : Next w (w.act (.list none memory))
  | unfetchedAdapter (memory : Bool) : Next w (w.act (.findAdapter none memory))
  | own (step : Step) (h : step.Own) : Next w (w.act step)

structure Channel (w : World) : Prop where
  trail : ∃ first, Trail w.fetches first w.queue w.tree
  known : ∀ serial ∈ w.fetches, serial < w.central.nextSerial
  replies : ∀ serial reply, .reply serial reply ∈ w.queue → serial < w.central.nextSerial
  serial : w.central.objects.serial ∈ 0 :: w.fetches

/-- A copy held will be the tree when all messages are handled, if no owner comes or goes. -/
structure Follows (w : World) : Prop where
  tidy : w.central.objects.loaded → Tidy w.central.objects.objects
  copy : w.central.objects.loaded → Steady w.queue → ∀ path,
    Agrees (followAll blank (w.queue.flatMap (Message.changesAt path))
      (copied w.central.objects.objects path)) (w.tree.cell path)

section World
variable {w : World}

theorem Channel.sent (h : Channel w) (hsaid : Said w.fetches w.tree message tree)
    (hreply : ∀ serial reply, message = .reply serial reply → serial < w.central.nextSerial) :
    Channel { w with tree, queue := w.queue ++ [message] } := by
  obtain ⟨first, htrail⟩ := h.trail
  refine ⟨⟨first, htrail.sent hsaid⟩, h.known, fun serial reply hmem => ?_, h.serial⟩
  obtain hold | hnew := mem_append.mp hmem
  · exact h.replies serial reply hold
  · exact hreply serial reply (mem_singleton.mp hnew).symm

theorem Follows.sent (h : Follows w) (hsaid : Said w.fetches w.tree message tree) :
    Follows { w with tree, queue := w.queue ++ [message] } := by
  refine ⟨h.tidy, fun hloaded hsteady path => ?_⟩
  have hold : Steady w.queue := fun owned hmem => hsteady owned (mem_append_left _ hmem)
  have hone : Steady [message] := fun owned hmem => hsteady owned (mem_append_right _ hmem)
  have hcourse := hsaid.course hone path
  simp only [flatMap_append, flatMap_cons, flatMap_nil, append_nil, Library.followAll_append]
  rw [← hcourse.ends]
  exact (h.copy hloaded hold path).followAll hcourse.fits

def Fetching (c c' : Central) : Prop :=
  c'.objects.serial = c.nextSerial ∧ c.nextSerial < c'.nextSerial

theorem Channel.act (h : Channel w) (hmono : w.central.nextSerial ≤ (step.run w.central).nextSerial)
    (hserial : (step.run w.central).objects.serial ∈ 0 :: w.fetches ∨
      Fetching w.central (step.run w.central)) : Channel (w.act step) := by
  obtain ⟨first, htrail⟩ := h.trail
  have hreplies : ∀ serial reply, .reply serial reply ∈ w.queue →
      serial < (step.run w.central).nextSerial :=
    fun serial reply hmem => (h.replies serial reply hmem).trans_le hmono
  by_cases hold : (step.run w.central).objects.serial ∈ 0 :: w.fetches
  · have hact : w.act step = { w with central := step.run w.central } := by
      rw [World.act, if_pos hold]
    rw [hact]
    exact ⟨⟨first, htrail⟩, fun serial hmem => (h.known serial hmem).trans_le hmono, hreplies, hold⟩
  · obtain ⟨hnew, hnext⟩ := hserial.resolve_left hold
    have hact : w.act step = { w with
        central := step.run w.central
        fetches := (step.run w.central).objects.serial :: w.fetches } := by
      rw [World.act, if_neg hold]
    rw [hact]
    refine ⟨⟨first, htrail.fetch fun reply hmem => ?_⟩, fun serial hmem => ?_, hreplies, ?_⟩
    · exact (h.replies _ reply hmem).ne hnew
    · obtain rfl | hmem := mem_cons.mp hmem
      · exact hnew ▸ hnext
      · exact (h.known serial hmem).trans_le hmono
    · exact mem_cons_of_mem _ (mem_cons_self)

structure Untouched (c c' : Central) : Prop where
  objects : c'.objects = c.objects
  serial : c.nextSerial ≤ c'.nextSerial

theorem Untouched.refl : Untouched c c := ⟨rfl, le_rfl⟩

theorem Untouched.calls (h : c.Calls c') : Untouched c c' := ⟨h.objects, h.serial⟩

theorem untouched_desk : Untouched c { c with desk } := ⟨rfl, le_rfl⟩

theorem untouched_pairing : Untouched c { c with pairing } := ⟨rfl, le_rfl⟩

theorem Channel.untouched (h : Channel w) (hstep : Untouched w.central (step.run w.central)) :
    Channel (w.act step) := by
  refine h.act hstep.serial (.inl ?_)
  rw [hstep.objects]
  exact h.serial

theorem Follows.same (h : Follows w)
    (hobjects : (step.run w.central).objects.objects = w.central.objects.objects)
    (hloaded : (step.run w.central).objects.loaded = w.central.objects.loaded) :
    Follows (w.act step) := by
  constructor
  · simp only [World.act, hobjects, hloaded]
    exact h.tidy
  · simp only [World.act, hobjects, hloaded]
    exact h.copy

theorem Follows.untouched (h : Follows w) (hstep : Untouched w.central (step.run w.central)) :
    Follows (w.act step) :=
  h.same (hstep.objects ▸ rfl) (hstep.objects ▸ rfl)

theorem Follows.dropped (h : (step.run w.central).objects.loaded = false) :
    Follows (w.act step) := by
  refine ⟨fun hloaded => ?_, fun hloaded => ?_⟩
  · cases h.symm.trans hloaded
  · cases h.symm.trans hloaded

end World

section Central
variable {c : Central}

theorem Untouched.ite [Decidable p] (h : Untouched c c') : Untouched c (if p then c' else c) := by
  split
  · exact h
  · exact .refl

structure Dropped (c c' : Central) : Prop where
  loaded : c'.objects.loaded = false
  mono : c.nextSerial ≤ c'.nextSerial
  serial : c'.objects.serial = 0 ∨ Fetching c c'

theorem discovering_step : Untouched c ((Step.discovering send).run c) ∨
    Dropped c ((Step.discovering send).run c) := by
  simp only [Step.run, Central.discovering]
  split
  · split
    · exact .inl .refl
    · rename_i hloaded
      split
      · split
        · exact .inr
            ⟨Bool.eq_false_of_not_eq_true hloaded, Nat.le_succ _, .inr ⟨rfl, Nat.lt_succ_self _⟩⟩
        · exact .inl .refl
      · exact .inl .refl
  · exact .inl .refl

theorem own_step (step : Step) (h : step.Own) :
    Untouched c (step.run c) ∨ Dropped c (step.run c) := by
  cases step with
  | receive | findAdapter | list => exact h.elim
  | ask request =>
    obtain ⟨-, hobjects, hserial⟩ := c.ask_frame request
    exact .inl ⟨hobjects, hserial⟩
  | expire => exact .inl (.ite untouched_desk)
  | pairBegin => exact .inl (.calls c.calls_pairBegin)
  | pairCancel => exact .inl (.calls c.calls_pairCancel)
  | agentRegister => exact .inl (.calls c.calls_agentRegister)
  | connectBegin => exact .inl (.calls c.calls_connectBegin.1)
  | sendLogged => exact .inl (.ite ⟨rfl, Nat.le_succ _⟩)
  | close => exact .inr ⟨rfl, le_rfl, .inl rfl⟩
  | discovering => exact discovering_step
  | readCancel | requestsCancel | attachLoop | detachLoop | timerReady => exact .inl untouched_desk
  | pairPoll | agentUnregister | submitPasskey | confirm | reject => exact .inl untouched_pairing
  | connectEnd => exact .inl ⟨rfl, le_rfl⟩

end Central

section World
variable {w : World}

theorem Channel.replay (h : Channel w) (hsteady : Steady w.queue)
    (hcopy : Agrees c (w.tree.cell path)) :
    Agrees (followAll blank (w.queue.flatMap (Message.changesAt path)) c) (w.tree.cell path) := by
  obtain ⟨_, htrail⟩ := h.trail
  have hcourse := htrail.course hsteady path
  rw [← hcourse.ends] at hcopy ⊢
  exact hcopy.replay hcourse.fits

theorem ensure_objects (c : Central) : (c.objectsEnsure reply memory).objects =
      match if c.objects.loaded then none else reply with
      | none => c.objects
      | some reply => objectsLoad memory { c.objects with serial := 0 } reply := by
  unfold Central.objectsEnsure
  split
  · rfl
  · split <;> rfl

theorem findAdapter_objects (c : Central) :
    (c.findAdapter reply memory).objects = (c.objectsEnsure reply memory).objects := by
  unfold Central.findAdapter
  dsimp only
  split
  · split <;> rfl
  · rfl

theorem load_serial : (objectsLoad memory o reply).serial = o.serial := by
  unfold objectsLoad
  split
  · rfl
  · rfl
  · split <;> rfl

structure Ensured (c c' : Central) (reply : Option TreeReply) (memory : Bool) : Prop where
  serial : c.nextSerial ≤ c'.nextSerial
  objects : c'.objects = c.objects ∨ ∃ listing, reply = some listing ∧
    c'.objects = objectsLoad memory { c.objects with serial := 0 } listing

theorem ensured_objectsEnsure : Ensured c (c.objectsEnsure reply memory) reply memory := by
  refine ⟨c.looks_objectsEnsure.serial, ?_⟩
  rw [ensure_objects]
  split
  · exact .inl rfl
  · rename_i listing hlisting
    split at hlisting
    · cases hlisting
    · exact .inr ⟨listing, hlisting, rfl⟩

theorem ensured_list : Ensured c ((Step.list reply memory).run c) reply memory := by
  change Ensured c (if c.opened then c.objectsEnsure reply memory else c) reply memory
  split
  · exact ensured_objectsEnsure
  · exact ⟨le_rfl, .inl rfl⟩

theorem ensured_findAdapter : Ensured c ((Step.findAdapter reply memory).run c) reply memory := by
  change Ensured c (if c.opened then c.findAdapter reply memory else c) reply memory
  split
  · refine ⟨c.looks_findAdapter.serial, ?_⟩
    rw [findAdapter_objects]
    exact ensured_objectsEnsure.objects
  · exact ⟨le_rfl, .inl rfl⟩

theorem Channel.ensured (h : Channel w)
    (hstep : Ensured w.central (step.run w.central) reply memory) : Channel (w.act step) := by
  refine h.act hstep.serial (.inl ?_)
  obtain hsame | ⟨_, -, hload⟩ := hstep.objects
  · rw [hsame]
    exact h.serial
  · rw [hload, load_serial]
    exact mem_cons_self

theorem Follows.fetched (h : Follows w) (hchannel : Channel w) (hreports : Reports entries w.tree)
    (hstep : Ensured w.central (step.run w.central) (some (.tree entries)) memory) :
    Follows (w.act step) := by
  obtain hsame | ⟨_, hlisting, hload⟩ := hstep.objects
  · exact h.untouched ⟨hsame, hstep.serial⟩
  · cases hlisting
    refine ⟨fun hloaded => ?_, fun hloaded hsteady path => ?_⟩
    · simp only [World.act, hload] at hloaded ⊢
      exact (hreports.loaded hloaded).1
    · simp only [World.act, hload] at hloaded ⊢
      exact hchannel.replay hsteady ((hreports.loaded hloaded).2 path)

theorem Follows.unfetched (h : Follows w)
    (hstep : Ensured w.central (step.run w.central) none memory) : Follows (w.act step) := by
  obtain hsame | ⟨_, hlisting, -⟩ := hstep.objects
  · exact h.untouched ⟨hsame, hstep.serial⟩
  · cases hlisting

theorem Channel.tail (h : Channel w) (hqueue : w.queue = message :: queue) :
    Channel { w with queue } ∧ ∃ first second, Said w.fetches first message second ∧
      Trail w.fetches second queue w.tree := by
  obtain ⟨_, htrail⟩ := h.trail
  rw [hqueue] at htrail
  cases htrail with
  | cons hsaid hrest =>
    refine ⟨⟨⟨_, hrest⟩, h.known, fun serial reply hmem => ?_, h.serial⟩, _, _, hsaid, hrest⟩
    exact h.replies serial reply (hqueue ▸ mem_cons_of_mem _ hmem)

theorem Follows.passed (h : Follows w) (hqueue : w.queue = message :: queue)
    (hnone : ∀ path, message.changesAt path = []) (hsteady : Steady [message]) :
    Follows { w with queue } := by
  refine ⟨h.tidy, fun hloaded hrest path => ?_⟩
  have hcopy := h.copy hloaded (hqueue ▸ hsteady.cons hrest) path
  rw [hqueue, flatMap_cons, hnone path, nil_append] at hcopy
  exact hcopy

theorem handleReply_objects (c : Central) :
    (c.handleReply serial reply memory).nextSerial = c.nextSerial ∧
      (c.handleReply serial reply memory).objects =
        if serial = c.objects.serial then objectsLoad memory { c.objects with serial := 0 }
          reply.tree
        else c.objects := by
  unfold Central.handleReply
  by_cases hserial : serial = c.objects.serial
  · rw [if_pos hserial, if_pos hserial]
    exact ⟨rfl, rfl⟩
  rw [if_neg hserial, if_neg hserial]
  split
  · exact ⟨rfl, rfl⟩
  split
  · unfold Central.subscribeFinish
    split <;> exact ⟨rfl, rfl⟩
  iterate 5
    split
    · exact ⟨rfl, rfl⟩
  split <;> exact ⟨rfl, rfl⟩

theorem handleSignal_loaded (h : (objectsHandleSignal memory sent o signal).loaded) : o.loaded := by
  cases hloaded : o.loaded with
  | true => rfl
  | false =>
    unfold objectsHandleSignal at h
    split at h
    · split at h
      · split at h <;> cases h
      · cases hloaded.symm.trans h
    · rw [hloaded] at h
      cases hloaded.symm.trans h
    · rw [hloaded] at h
      cases hloaded.symm.trans h
    · split at h
      · cases hloaded.symm.trans h
      · rw [objectsPropertiesChanged, hloaded] at h
        cases hloaded.symm.trans h

theorem handleSignal_serial (howner : ∀ owned, signal ≠ .ownerChanged true owned) :
    (objectsHandleSignal memory sent o signal).serial = o.serial := by
  unfold objectsHandleSignal
  split
  · rename_i bluez owned
    cases bluez with
    | true => exact absurd rfl (howner owned)
    | false => rfl
  · split
    · split <;> rfl
    · rfl
  · split <;> rfl
  · split
    · rfl
    · unfold objectsPropertiesChanged
      split
      · rfl
      · split
        · split <;> rfl
        · rfl

theorem handleTree_step (c : Central) (signal : TreeSignal) (memory send : Bool) :
    (c.handleTree signal memory send).objects =
        objectsHandleSignal memory (if send then some c.nextSerial else none) c.objects signal ∧
      ((c.handleTree signal memory send).objects.serial = c.objects.serial ∨
        (c.handleTree signal memory send).objects.serial = 0 ∨
        Fetching c (c.handleTree signal memory send)) := by
  have hobjects : (c.handleTree signal memory send).objects =
      objectsHandleSignal memory (if send then some c.nextSerial else none) c.objects signal := by
    unfold Central.handleTree
    dsimp only
    split
    · split <;> rfl
    · rfl
  refine ⟨hobjects, ?_⟩
  by_cases howner : ∃ owned, signal = .ownerChanged true owned
  · obtain ⟨owned, rfl⟩ := howner
    cases owned with
    | false => exact .inr (.inl rfl)
    | true =>
      cases send with
      | false => exact .inr (.inl rfl)
      | true => exact .inr (.inr ⟨rfl, Nat.lt_succ_self _⟩)
  · rw [hobjects]
    exact .inl (handleSignal_serial fun owned heq => howner ⟨owned, heq⟩)

theorem Channel.handledTree (h : Channel w) (hopened : w.central.opened) :
    Channel (w.act (.receive (.tree signal) memory send)) := by
  have hrun : (Step.receive (.tree signal) memory send).run w.central =
      w.central.handleTree signal memory send := if_pos hopened
  obtain ⟨-, hserial⟩ := handleTree_step w.central signal memory send
  refine h.act ?_ ?_
  · rw [hrun]
    exact w.central.looks_handleTree.serial
  · rw [hrun]
    obtain hsame | hzero | hnew := hserial
    · exact .inl (hsame ▸ h.serial)
    · exact .inl (hzero ▸ mem_cons_self)
    · exact .inr hnew

theorem Follows.handledTree (h : Follows w) (hqueue : w.queue = .tree signal :: queue)
    (hopened : w.central.opened) (halter : Altered first signal second) :
    Follows (World.act { w with queue } (.receive (.tree signal) memory send)) := by
  have hrun : (Step.receive (.tree signal) memory send).run w.central =
      w.central.handleTree signal memory send := if_pos hopened
  obtain ⟨hobjects, -⟩ := handleTree_step w.central signal memory send
  refine ⟨fun hloaded => ?_, fun hloaded hrest path => ?_⟩
  · simp only [World.act, hrun, hobjects] at hloaded ⊢
    have hbefore := handleSignal_loaded hloaded
    exact (handleSignal_follows (h.tidy hbefore) hbefore halter.proper hloaded).1
  · simp only [World.act, hrun, hobjects] at hloaded ⊢
    have hbefore := handleSignal_loaded hloaded
    -- a copy is not held any more when its owner has gone
    have hone : Steady [.tree signal] := by
      intro owned hmem
      cases mem_singleton.mp hmem
      cases owned <;> cases hloaded
    rw [(handleSignal_follows (h.tidy hbefore) hbefore halter.proper hloaded).2 path]
    have hcopy := h.copy hbefore (hqueue ▸ hone.cons hrest) path
    rw [hqueue, flatMap_cons, Library.followAll_append] at hcopy
    exact hcopy

theorem handledReply_step (hopened : c.opened) :
    ((Step.receive (.reply serial reply) memory send).run c).nextSerial = c.nextSerial ∧
      ((Step.receive (.reply serial reply) memory send).run c).objects =
        if serial ≠ 0 ∧ serial = c.objects.serial then
          objectsLoad memory { c.objects with serial := 0 } reply.tree
        else c.objects := by
  have hrun : (Step.receive (.reply serial reply) memory send).run c =
      c.handleMessage (.reply serial reply) memory send := if_pos hopened
  rw [hrun]
  unfold Central.handleMessage
  dsimp only
  by_cases hzero : serial = 0
  · rw [if_pos hzero, if_neg fun hboth => hboth.1 hzero]
    exact ⟨rfl, rfl⟩
  · rw [if_neg hzero]
    obtain ⟨hserial, hobjects⟩ := handleReply_objects
      { c with desk := c.desk.note (.received serial reply) }
    refine ⟨hserial, hobjects.trans ?_⟩
    simp [hzero]

theorem Channel.handledReply (h : Channel w) (hopened : w.central.opened) (serial : Nat) :
    Channel (w.act (.receive (.reply serial reply) memory send)) := by
  obtain ⟨hserial, hobjects⟩ := handledReply_step hopened
  refine h.act hserial.ge (.inl ?_)
  rw [hobjects]
  split
  · rw [load_serial]
    exact mem_cons_self
  · exact h.serial

theorem Follows.handledReply (h : Follows w) (hchannel : Channel w)
    (hqueue : w.queue = .reply serial reply :: queue) (hopened : w.central.opened)
    (hsaid : serial ∈ w.fetches → ∀ entries, reply = .returned (.tree entries) →
      Reports entries first)
    (hrest : Trail w.fetches first queue w.tree) :
    Follows (World.act { w with queue } (.receive (.reply serial reply) memory send)) := by
  have hpassed : Follows { w with queue } := h.passed hqueue (fun _ => rfl) fun _ => by simp
  obtain ⟨_, hobjects⟩ := handledReply_step hopened
  by_cases hours : serial ≠ 0 ∧ serial = w.central.objects.serial
  · rw [if_pos hours] at hobjects
    have hfetched : serial ∈ w.fetches := by
      have hmem := hchannel.serial
      rw [← hours.2] at hmem
      exact (mem_cons.mp hmem).resolve_left hours.1
    cases htree : reply.tree with
    | error | other =>
      rw [htree] at hobjects
      exact hpassed.same (hobjects ▸ rfl) (hobjects ▸ rfl)
    | tree entries =>
      have hreply : reply = .returned (.tree entries) := by
        cases reply with
        | error => cases htree
        | returned body =>
          cases body <;> cases htree
          rfl
      have hreports := hsaid hfetched entries hreply
      rw [htree] at hobjects
      refine ⟨fun hloaded => ?_, fun hloaded hsteady path => ?_⟩
      · simp only [World.act, hobjects] at hloaded ⊢
        exact (hreports.loaded hloaded).1
      · simp only [World.act, hobjects] at hloaded ⊢
        have hcourse := hrest.course hsteady path
        rw [← hcourse.ends]
        exact ((hreports.loaded hloaded).2 path).followAll hcourse.fits
  · rw [if_neg hours] at hobjects
    exact hpassed.same (hobjects ▸ rfl) (hobjects ▸ rfl)

theorem Channel.sent_reply {serial : Nat} (h : Channel w)
    (hsaid : Said w.fetches w.tree (.reply serial reply) w.tree)
    (hserial : serial < w.central.nextSerial) :
    Channel { w with queue := w.queue ++ [.reply serial reply] } := by
  refine h.sent hsaid fun _ _ heq => ?_
  cases heq
  exact hserial

theorem next_follows (hchannel : Channel w) (h : Follows w) (hnext : Next w w') :
    Channel w' ∧ Follows w' := by
  cases hnext with
  | changed signal tree halter =>
    exact ⟨hchannel.sent (.tree signal halter) nofun, h.sent (.tree signal halter)⟩
  | answered serial entries hserial hreports =>
    have hsaid : Said w.fetches w.tree (.reply serial (.returned (.tree entries))) w.tree :=
      .reply serial _ fun _ _ heq => by
        cases heq
        exact hreports
    exact ⟨hchannel.sent_reply hsaid (hchannel.known serial hserial), h.sent hsaid⟩
  | failed serial name message hserial =>
    have hsaid : Said w.fetches w.tree (.reply serial (.error name message)) w.tree :=
      .reply serial _ fun _ _ => nofun
    exact ⟨hchannel.sent_reply hsaid (hchannel.known serial hserial), h.sent hsaid⟩
  | sent message hforeign =>
    cases message with
    | tree => exact hforeign.elim
    | reply serial reply =>
      have hsaid : Said w.fetches w.tree (.reply serial reply) w.tree :=
        .reply serial reply fun hmem => absurd hmem hforeign.2
      exact ⟨hchannel.sent_reply hsaid hforeign.1, h.sent hsaid⟩
    | agent call => exact ⟨hchannel.sent (.agent call) nofun, h.sent (.agent call)⟩
    | value path data => exact ⟨hchannel.sent (.value path data) nofun, h.sent (.value path data)⟩
    | other => exact ⟨hchannel.sent .other nofun, h.sent .other⟩
  | handled _ _ _ _ hopened hqueue =>
    obtain ⟨hrest, _, _, hsaid, hsays⟩ := hchannel.tail hqueue
    cases hsaid with
    | tree _ halter => exact ⟨hrest.handledTree hopened, h.handledTree hqueue hopened halter⟩
    | reply serial _ hreports =>
      exact ⟨hrest.handledReply hopened serial,
        h.handledReply hchannel hqueue hopened hreports hsays⟩
    | _ =>
      exact ⟨hrest.untouched (.ite ⟨rfl, le_rfl⟩),
        (h.passed hqueue (fun _ => rfl) fun _ => by simp).untouched (.ite ⟨rfl, le_rfl⟩)⟩
  | fetched _ _ hreports =>
    exact ⟨hchannel.ensured (ensured_list ..), h.fetched hchannel hreports (ensured_list ..)⟩
  | fetchedAdapter _ _ hreports =>
    exact ⟨hchannel.ensured (ensured_findAdapter ..),
      h.fetched hchannel hreports (ensured_findAdapter ..)⟩
  | unfetched => exact ⟨hchannel.ensured (ensured_list ..), h.unfetched (ensured_list ..)⟩
  | unfetchedAdapter =>
    exact ⟨hchannel.ensured (ensured_findAdapter ..), h.unfetched (ensured_findAdapter ..)⟩
  | own step hown =>
    obtain hsame | hdropped := own_step step hown
    · exact ⟨hchannel.untouched hsame, h.untouched hsame⟩
    · refine ⟨hchannel.act hdropped.mono (hdropped.serial.imp_left fun hzero => ?_),
        .dropped hdropped.loaded⟩
      exact hzero ▸ mem_cons_self

def Reached (first : Tree) (w : World) : Prop := Relation.ReflTransGen Next { tree := first } w

theorem Reached.follows (h : Reached first w) : Channel w ∧ Follows w := by
  induction h with
  | refl => exact ⟨⟨⟨first, .nil _⟩, nofun, nofun, mem_cons_self⟩, nofun, nofun⟩
  | tail _ hnext ih => exact next_follows ih.1 ih.2 hnext

/-- When all messages are handled, a copy is bluetoothd's tree: it has the objects with a kept
interface, once each, with what is kept of their properties. -/
theorem copy_agrees (h : Reached first w) (hqueue : w.queue = [])
    (hloaded : w.central.objects.loaded) :
    (w.central.objects.objects.map Object.path).Nodup ∧
      ∀ path, Agrees (copied w.central.objects.objects path) (w.tree.cell path) := by
  obtain ⟨-, hfollows⟩ := h.follows
  refine ⟨(hfollows.tidy hloaded).paths, fun path => ?_⟩
  have hcopy := hfollows.copy hloaded (hqueue ▸ fun _ => nofun) path
  rw [hqueue] at hcopy
  exact hcopy

end World

def adapterEntry (powered : Bool) : Entry where
  interface := .adapter
  values
    | .powered => some (.boolean powered)
    | .discovering => some (.boolean false)
    | _ => none
  typed := by
    intro n v h
    cases n <;> cases h <;> trivial
  present := by
    intro n h
    cases n <;> first | exact h.elim | nofun

def adapterTree (powered : Bool) : Tree where
  item path := if path = defaultAdapter then some (adapterEntry powered) else none
  fits := by
    intro _ h
    split at h
    · rename_i hpath
      rw [hpath]
      decide
    · exact absurd rfl h

def adapterListing : List (Text × Interfaces) :=
  [(defaultAdapter,
    [(none, []), (some .adapter, [(.powered, .boolean true), (.discovering, .boolean false)])])]

def adapterFetched : World :=
  let w : World := { tree := adapterTree true,
                     queue := [.tree (.propertiesChanged defaultAdapter .adapter
                       [(.powered, .boolean true)] [])] }
  World.act { w.act (.list (some (.tree adapterListing)) true) with queue := [] }
    (.receive (.tree (.propertiesChanged defaultAdapter .adapter [(.powered, .boolean true)] []))
      true true)

theorem reports_adapter : Reports adapterListing (adapterTree true) := by
  intro path
  by_cases hpath : path = defaultAdapter
  · subst hpath
    refine ⟨[(.powered, .boolean true), (.discovering, .boolean false)], rfl, fun n v => ?_⟩
    cases n <;> simp [adapterEntry, eq_comm]
  · simp [adapterTree, hpath, said, adapterListing, Ne.symm hpath]

theorem reached_adapterFetched : Reached (adapterTree false) adapterFetched := by
  have hpowered : Next { tree := adapterTree false }
      { tree := adapterTree true,
        queue := [.tree
          (.propertiesChanged defaultAdapter .adapter [(.powered, .boolean true)] [])] } := by
    refine .changed _ (adapterTree true) ?_
    refine .changed defaultAdapter (adapterEntry false) (adapterEntry true)
      [(.powered, .boolean true)]
      (fun n => if n = .powered then some (.boolean true) else none) [] rfl ?_ rfl ?_ ?_ ?_ nofun
    · funext path
      by_cases hpath : path = defaultAdapter
      · subst hpath
        rfl
      · simp [adapterTree, hpath]
    · intro n v
      cases n <;> simp [eq_comm]
    · intro n v h
      cases n <;> cases h
      trivial
    · intro n
      cases n <;> rfl
  refine .tail (.tail (.single hpowered) (.fetched adapterListing true reports_adapter)) ?_
  exact .handled _ [] true true (by decide) rfl

theorem copy_agrees_adapterFetched : Reached (adapterTree false) adapterFetched ∧
    adapterFetched.central.objects.loaded ∧ adapterFetched.queue = [] ∧
    Agrees (copied adapterFetched.central.objects.objects defaultAdapter)
      (adapterFetched.tree.cell defaultAdapter) := by
  have hloaded : adapterFetched.central.objects.loaded = true := by decide
  exact ⟨reached_adapterFetched, hloaded, rfl,
    (copy_agrees reached_adapterFetched rfl hloaded).2 defaultAdapter⟩

end Inkwell.Bluez
