import NominalTypes.Ty.Basic
import Mathlib

/-!
# The structure of types

A type is made of other types: its component, its arguments and its owner, its bounds. Proofs about
types go by induction over these, and properties of a type that all its parts share are stated with
`Ty.Every`.

What a type means does not depend on annotations, on the numbers of occurrences, or on the number of
a capture. `Ty.bare` leaves them out. Types with the same bare form are equal as the table compares
them; the converse holds as long as a captured variable is determined by its token.
-/

namespace NominalTypes.Ty

open List

variable {t s : Ty} {marks : List ClassId} {p : Ty → Prop} {ss ts : List Ty}

/-! ### Parts -/

/-- The types of which a type is directly made. -/
def children : Ty → List Ty
  | array component _ => [component]
  | declared _ args owner _ => args ++ owner.toList
  | wildcard _ upper lower _ => [upper, lower]
  | captured _ _ upper lower _ => [upper, lower]
  | intersection _ bounds => bounds
  | union _ alternatives => alternatives
  | executable _ vars result parameters receiver thrown =>
    vars ++ result :: receiver :: (parameters ++ thrown)
  | _ => []

theorem sizeOf_lt_of_mem_children {x} (h : x ∈ t.children) : sizeOf x < sizeOf t := by
  have hlist (ts : List Ty) (hx : x ∈ ts) : sizeOf x < sizeOf ts := sizeOf_lt_of_mem hx
  cases t with
  | primitive | none | void | null | package | var => cases h
  | array component marks =>
    cases mem_singleton.mp h
    simp only [array.sizeOf_spec]
    omega
  | declared c args owner marks =>
    rcases mem_append.mp h with h | h
    · have := hlist args h
      simp only [declared.sizeOf_spec]
      omega
    · cases owner with
      | none => cases h
      | some o =>
        cases mem_singleton.mp h
        simp only [declared.sizeOf_spec, Option.some.sizeOf_spec]
        omega
  | wildcard n upper lower marks =>
    simp only [children, mem_cons, not_mem_nil, or_false] at h
    rcases h with rfl | rfl <;> simp only [wildcard.sizeOf_spec] <;> omega
  | captured token site upper lower marks =>
    simp only [children, mem_cons, not_mem_nil, or_false] at h
    rcases h with rfl | rfl <;> simp only [captured.sizeOf_spec] <;> omega
  | intersection n bounds =>
    have := hlist bounds h
    simp only [intersection.sizeOf_spec]
    omega
  | union n alternatives =>
    have := hlist alternatives h
    simp only [union.sizeOf_spec]
    omega
  | executable e vars result parameters receiver thrown =>
    simp only [children, mem_append, mem_cons] at h
    simp only [executable.sizeOf_spec]
    rcases h with h | rfl | rfl | h | h
    · have := hlist vars h
      omega
    · omega
    · omega
    · have := hlist parameters h
      omega
    · have := hlist thrown h
      omega

/-- Induction over the types of which a type is made. -/
theorem children_induction {motive : Ty → Prop}
    (step : ∀ t, (∀ x ∈ t.children, motive x) → motive t) (t : Ty) : motive t :=
  step t fun x _ => children_induction step x
termination_by sizeOf t
decreasing_by exact sizeOf_lt_of_mem_children ‹_›

/-- The type and all types of which it is made have the property. -/
inductive Every (p : Ty → Prop) : Ty → Prop
  | intro {t : Ty} (top : p t) (parts : ∀ x ∈ t.children, Every p x) : Every p t

namespace Every

variable {q : Ty → Prop}

theorem top (h : Every p t) : p t := by
  cases h
  assumption

theorem part (h : Every p t) {x : Ty} (hx : x ∈ t.children) : Every p x := by
  cases h with
  | intro _ parts => exact parts x hx

theorem mono (h : Every p t) (hpq : ∀ x, p x → q x) : Every q t := by
  induction h with
  | intro top _ ih => exact intro (hpq _ top) ih

theorem and (hp : Every p t) (hq : Every q t) : Every (fun x => p x ∧ q x) t := by
  induction hp with
  | intro top _ ih => exact intro ⟨top, hq.top⟩ fun x hx => ih x hx (hq.part hx)

theorem of_forall (h : ∀ x, p x) (t : Ty) : t.Every p := by
  induction t using children_induction with
  | step t ih => exact .intro (h t) ih

theorem leaf (h : p t) (ht : t.children = []) : Every p t :=
  intro h fun x hx => by rw [ht] at hx; cases hx

theorem array (h : p (.array s marks)) (hs : Every p s) : Every p (.array s marks) :=
  intro h fun _ hx => mem_singleton.mp hx ▸ hs

theorem component (h : Every p (.array s marks)) : Every p s :=
  h.part mem_cons_self

section Declared

variable {c : ClassId} {args : List Ty} {o : Option Ty}

theorem declared (h : p (.declared c args o marks)) (hargs : ∀ a ∈ args, Every p a)
    (howner : ∀ x ∈ o, Every p x) : Every p (.declared c args o marks) := by
  refine intro h fun x hx => ?_
  rcases mem_append.mp hx with hx | hx
  · exact hargs x hx
  · exact howner x (Option.mem_toList.mp hx)

theorem arg (h : Every p (.declared c args o marks)) {a : Ty} (ha : a ∈ args) : Every p a :=
  h.part (mem_append_left _ ha)

theorem owner (h : Every p (.declared c args o marks)) {x : Ty} (hx : x ∈ o) : Every p x :=
  h.part (mem_append_right _ (Option.mem_toList.mpr hx))

end Declared

section Bounds

variable {n token site : Nat} {u l : Ty}

theorem wildcard (h : p (.wildcard n u l marks)) (hu : Every p u) (hl : Every p l) :
    Every p (.wildcard n u l marks) := by
  refine intro h fun x hx => ?_
  rcases mem_cons.mp hx with rfl | hx
  · exact hu
  · exact mem_singleton.mp hx ▸ hl

theorem upper (h : Every p (.wildcard n u l marks)) : Every p u :=
  h.part mem_cons_self

theorem lower (h : Every p (.wildcard n u l marks)) : Every p l :=
  h.part (mem_cons_of_mem _ mem_cons_self)

theorem capturedUpper (h : Every p (.captured token site u l marks)) : Every p u :=
  h.part mem_cons_self

theorem capturedLower (h : Every p (.captured token site u l marks)) : Every p l :=
  h.part (mem_cons_of_mem _ mem_cons_self)

end Bounds

theorem orUpper (h : Every p t) : Every p t.orUpper := by
  cases t with
  | wildcard n upper lower marks => exact h.upper
  | _ => exact h

theorem orLower (h : Every p t) : Every p t.orLower := by
  cases t with
  | wildcard n upper lower marks => exact h.lower
  | _ => exact h

end Every

/-! ### What substitution goes through -/

/-- The parts of a type that substitution goes through: the bounds of a captured variable and the
type variables of an executable are left alone. -/
def visitedParts : Ty → List Ty
  | captured _ _ _ _ _ => []
  | executable _ _ result parameters receiver thrown => result :: receiver :: (parameters ++ thrown)
  | t => t.children

/-- The parts of a type that substitution leaves alone. -/
def keptParts : Ty → List Ty
  | captured _ _ upper lower _ => [upper, lower]
  | executable _ vars _ _ _ _ => vars
  | _ => []

/-- The type and all its parts that substitution goes through have the property. -/
inductive Visited (p : Ty → Prop) : Ty → Prop
  | intro {t : Ty} (top : p t) (parts : ∀ x ∈ t.visitedParts, Visited p x) : Visited p t

section Visited

variable {q : Ty → Prop} {x : Ty}

theorem visitedParts_subset (t : Ty) : ∀ x ∈ t.visitedParts, x ∈ t.children := by
  cases t <;> simp +contextual [visitedParts, children]

theorem keptParts_subset (t : Ty) : ∀ x ∈ t.keptParts, x ∈ t.children := by
  cases t <;> simp +contextual [keptParts, children]

theorem Visited.top (h : t.Visited p) : p t := by
  cases h
  assumption

theorem Visited.part (h : t.Visited p) (hx : x ∈ t.visitedParts) : x.Visited p := by
  cases h with
  | intro _ parts => exact parts x hx

theorem Visited.leaf (h : p t) (ht : t.visitedParts = []) : t.Visited p :=
  .intro h fun x hx => by simp [ht] at hx

theorem Every.visited (h : t.Every p) : t.Visited p := by
  induction h with
  | @intro t top _ ih => exact .intro top fun x hx => ih x (t.visitedParts_subset x hx)

theorem Visited.mono (h : t.Visited p) (hpq : ∀ x, p x → q x) : t.Visited q := by
  induction h with
  | intro top _ ih => exact .intro (hpq _ top) ih

theorem Visited.and (hp : t.Visited p) (hq : t.Visited q) : t.Visited fun x => p x ∧ q x := by
  induction hp with
  | intro top _ ih => exact .intro ⟨top, hq.top⟩ fun x hx => ih x hx (hq.part hx)

end Visited

/-- Whether the type is a variable. -/
def isVariable : Ty → Bool
  | var _ _ _ => true
  | _ => false

theorem exists_eq_var (h : t.isVariable = true) : ∃ n v marks, t = var n v marks := by
  cases t <;> first | exact ⟨_, _, _, rfl⟩ | cases h

theorem exists_eq_declared (h : t.kind = .declared) :
    ∃ c args owner marks, t = declared c args owner marks := by
  cases t <;> first | exact ⟨_, _, _, _, rfl⟩ | cases h

theorem exists_eq_primitive (h : t.isPrimitive = true) :
    ∃ p marks, t = primitive p marks := by
  cases t <;> first | exact ⟨_, _, rfl⟩ | cases h

theorem exists_eq_wildcard (h : t.isWildcard = true) :
    ∃ n upper lower marks, t = wildcard n upper lower marks := by
  cases t <;> first | exact ⟨_, _, _, _, rfl⟩ | cases h

theorem exists_eq_intersection (h : t.kind = .intersection) :
    ∃ n bounds, t = intersection n bounds := by
  cases t <;> first | exact ⟨_, _, rfl⟩ | cases h

theorem orUpper_eq_self (h : t.isWildcard = false) : t.orUpper = t := by
  cases t <;> first | rfl | cases h

theorem orLower_eq_self (h : t.isWildcard = false) : t.orLower = t := by
  cases t <;> first | rfl | cases h

/-! ### Bare types -/

mutual

/-- The type without annotations, numbers of occurrences and numbers of captures. -/
def bare : Ty → Ty
  | primitive p _ => primitive p []
  | none => none
  | void _ => void []
  | null => null
  | array component _ => array (bare component) []
  | declared c args owner _ => declared c (bareAll args) (bareOwner owner) []
  | var _ v _ => var 0 v []
  | wildcard _ upper lower _ => wildcard 0 (bare upper) (bare lower) []
  | captured token _ upper lower _ => captured token 0 (bare upper) (bare lower) []
  | intersection _ bounds => intersection 0 (bareAll bounds)
  | union _ alternatives => union 0 (bareAll alternatives)
  | executable e vars result parameters receiver thrown =>
    executable e (bareAll vars) (bare result) (bareAll parameters) (bare receiver) (bareAll thrown)
  | package p => package p

/-- The types without annotations and numbers. -/
def bareAll : List Ty → List Ty
  | [] => []
  | t :: ts => bare t :: bareAll ts

/-- The owner without annotations and numbers. -/
def bareOwner : Option Ty → Option Ty
  | .none => .none
  | some t => some (bare t)

end

theorem bareAll_eq_map (ts : List Ty) : bareAll ts = ts.map bare := by
  induction ts with
  | nil => rfl
  | cons t ts ih => exact congrArg (t.bare :: ·) ih

theorem bareOwner_eq_map (o : Option Ty) : bareOwner o = o.map bare := by
  cases o <;> rfl

theorem bare_declared (c : ClassId) (args : List Ty) (owner : Option Ty) (marks : List ClassId) :
    (declared c args owner marks).bare = declared c (args.map bare) (owner.map bare) [] :=
  congrArg₂ (declared c · · []) (bareAll_eq_map args) (bareOwner_eq_map owner)

theorem bare_intersection (n : Nat) (bounds : List Ty) :
    (intersection n bounds).bare = intersection 0 (bounds.map bare) :=
  congrArg (intersection 0) (bareAll_eq_map bounds)

theorem bare_union (n : Nat) (alternatives : List Ty) :
    (union n alternatives).bare = union 0 (alternatives.map bare) :=
  congrArg (union 0) (bareAll_eq_map alternatives)

theorem bare_executable (e : ExecutableId) (vars : List Ty) (result : Ty) (parameters : List Ty)
    (receiver : Ty) (thrown : List Ty) :
    (executable e vars result parameters receiver thrown).bare =
      executable e (vars.map bare) result.bare (parameters.map bare) receiver.bare
        (thrown.map bare) := by
  rw [← bareAll_eq_map, ← bareAll_eq_map, ← bareAll_eq_map]
  rfl

@[simp]
theorem kind_bare (t : Ty) : t.bare.kind = t.kind := by
  cases t <;> rfl

@[simp]
theorem isReference_bare (t : Ty) : t.bare.isReference = t.isReference := by
  cases t <;> rfl

@[simp]
theorem isArgument_bare (t : Ty) : t.bare.isArgument = t.isArgument := by
  cases t <;> rfl

@[simp]
theorem isWildcard_bare (t : Ty) : t.bare.isWildcard = t.isWildcard := by
  cases t <;> rfl

@[simp]
theorem isPrimitive_bare (t : Ty) : t.bare.isPrimitive = t.isPrimitive := by
  cases t <;> rfl

@[simp]
theorem bare_bare (t : Ty) : t.bare.bare = t.bare := by
  induction t using children_induction with
  | step t ih =>
    have hall (ts : List Ty) (hts : ∀ x ∈ ts, x ∈ t.children) :
        (ts.map bare).map bare = ts.map bare := by
      rw [map_map]
      exact map_congr_left fun x hx => ih x (hts x hx)
    cases t with
    | declared c args owner marks =>
      have hargs := hall args fun x hx => mem_append_left _ hx
      have howner : (owner.map bare).map bare = owner.map bare := by
        rw [Option.map_map]
        exact Option.map_congr fun o ho => ih o (mem_append_right _ (Option.mem_toList.mpr ho))
      rw [bare_declared, bare_declared, hargs, howner]
    | intersection n bounds =>
      rw [bare_intersection, bare_intersection, hall bounds fun x hx => hx]
    | union n bounds => rw [bare_union, bare_union, hall bounds fun x hx => hx]
    | executable e vars result parameters receiver thrown =>
      rw [bare_executable, bare_executable, ih result (by simp [children]),
        ih receiver (by simp [children]), hall vars (by simp +contextual [children]),
        hall parameters (by simp +contextual [children]),
        hall thrown (by simp +contextual [children])]
    | array component marks => exact congrArg (array · []) (ih component mem_cons_self)
    | wildcard n upper lower marks =>
      exact congrArg₂ (wildcard 0 · · []) (ih upper (by simp [children]))
        (ih lower (by simp [children]))
    | captured token site upper lower marks =>
      exact congrArg₂ (captured token 0 · · []) (ih upper (by simp [children]))
        (ih lower (by simp [children]))
    | _ => rfl

theorem bare_orUpper (t : Ty) : t.orUpper.bare = t.bare.orUpper := by
  cases t <;> rfl

theorem bare_orLower (t : Ty) : t.orLower.bare = t.bare.orLower := by
  cases t <;> rfl

theorem children_bare (t : Ty) : t.bare.children = t.children.map bare := by
  cases t with
  | declared c args owner marks =>
    cases owner <;> simp [bare_declared, children]
  | executable => simp [bare_executable, children]
  | intersection n bounds => simp [bare_intersection, children]
  | union n alternatives => simp [bare_union, children]
  | _ => rfl

/-! ### One layer -/

/-- The type with its parts replaced, but for the bounds of captured variables and the type
parameters of executables. A wildcard that lands where no wildcard can stand gives way to its
bound. -/
def rebuild (f : Ty → Ty) : Ty → Ty
  | array component marks => array (f component).orUpper marks
  | declared c args owner marks => declared c (args.map f) (owner.map f) marks
  | wildcard n upper lower marks => wildcard n (f upper).orUpper (f lower).orLower marks
  | intersection n bounds => intersection n (bounds.map fun b => (f b).orUpper)
  | union n alternatives => union n (alternatives.map f)
  | executable e vars result parameters receiver thrown =>
    executable e vars (f result) (parameters.map f) (f receiver) (thrown.map f)
  | t => t

section Rebuild

variable {f g : Ty → Ty}

theorem isVariable_bare (t : Ty) : t.bare.isVariable = t.isVariable := by
  cases t <;> rfl

theorem isVariable_rebuild (f : Ty → Ty) (t : Ty) : (t.rebuild f).isVariable = t.isVariable := by
  cases t <;> rfl

theorem rebuild_congr (h : ∀ x ∈ t.children, f x = g x) : t.rebuild f = t.rebuild g := by
  have hall (ts : List Ty) (hts : ∀ x ∈ ts, x ∈ t.children) : ts.map f = ts.map g :=
    map_congr_left fun x hx => h x (hts x hx)
  cases t with
  | array component marks => rw [rebuild, rebuild, h component mem_cons_self]
  | declared c args owner marks =>
    have howner := Option.map_congr fun x hx =>
      h x (mem_append_right args (Option.mem_toList.mpr hx))
    rw [rebuild, rebuild, howner, hall args fun x hx => mem_append_left _ hx]
  | wildcard n upper lower marks =>
    rw [rebuild, rebuild, h upper mem_cons_self, h lower (by simp [children])]
  | intersection n bounds =>
    have hbounds : (bounds.map fun b => (f b).orUpper) = bounds.map fun b => (g b).orUpper :=
      map_congr_left fun b hb => congrArg orUpper (h b hb)
    rw [rebuild, rebuild, hbounds]
  | union n alternatives => rw [rebuild, rebuild, hall alternatives fun x hx => hx]
  | executable e vars result parameters receiver thrown =>
    rw [rebuild, rebuild, h result (by simp [children]), h receiver (by simp [children]),
      hall parameters (by simp +contextual [children]),
      hall thrown (by simp +contextual [children])]
  | _ => rfl

/-- Two layers are one, if a wildcard may give way before the second or after it. -/
theorem rebuild_rebuild (hupper : ∀ x : Ty, (f x.orUpper).orUpper = (f x).orUpper)
    (hlower : ∀ x : Ty, (f x.orLower).orLower = (f x).orLower) (t : Ty) :
    (t.rebuild g).rebuild f = t.rebuild fun x => f (g x) := by
  cases t <;> simp [rebuild, hupper, hlower, Function.comp_def]

theorem bare_rebuild (h : ∀ x ∈ t.visitedParts, (f x).bare = g x.bare) :
    (t.rebuild f).bare = t.bare.rebuild g := by
  have hall (ts : List Ty) (hts : ∀ x ∈ ts, x ∈ t.visitedParts) :
      (ts.map f).map bare = (ts.map bare).map g := by
    rw [map_map, map_map]
    exact map_congr_left fun x hx => h x (hts x hx)
  cases t with
  | array component marks => simp only [rebuild, bare, bare_orUpper, h component mem_cons_self]
  | declared c args owner marks =>
    have howner : (owner.map f).map bare = (owner.map bare).map g := by
      rw [Option.map_map, Option.map_map]
      exact Option.map_congr fun o ho => h o (mem_append_right _ (Option.mem_toList.mpr ho))
    rw [rebuild, bare_declared, bare_declared, rebuild, howner,
      hall args fun x hx => mem_append_left _ hx]
  | wildcard n upper lower marks =>
    simp only [rebuild, bare, bare_orUpper, bare_orLower, h upper mem_cons_self,
      h lower (mem_cons_of_mem _ mem_cons_self)]
  | intersection n bounds =>
    have hbounds := congrArg (List.map orUpper) (hall bounds fun x hx => hx)
    simp only [map_map, Function.comp_def] at hbounds
    simp only [rebuild, bare_intersection, map_map, Function.comp_def, bare_orUpper, hbounds]
  | union n alternatives =>
    rw [rebuild, bare_union, bare_union, rebuild, hall alternatives fun x hx => hx]
  | executable e vars result parameters receiver thrown =>
    simp only [rebuild, bare_executable, h result (by simp [visitedParts]),
      h receiver (by simp [visitedParts]), hall parameters (by simp +contextual [visitedParts]),
      hall thrown (by simp +contextual [visitedParts])]
  | _ => rfl

/-- The parts at which a wildcard gives way to its bound. -/
def stems : Ty → List Ty
  | array component _ => [component]
  | wildcard _ upper lower _ => [upper, lower]
  | intersection _ bounds => bounds
  | _ => []

theorem rebuild_eq_self (h : ∀ x ∈ t.children, f x = x)
    (hstems : ∀ x ∈ t.stems, x.isWildcard = false) : t.rebuild f = t := by
  have hid : t.rebuild f = t.rebuild id := rebuild_congr h
  rw [hid]
  cases t with
  | array component marks =>
    exact congrArg (array · marks) (orUpper_eq_self (hstems component mem_cons_self))
  | wildcard n upper lower marks =>
    exact congrArg₂ (wildcard n · · marks) (orUpper_eq_self (hstems upper mem_cons_self))
      (orLower_eq_self (hstems lower (mem_cons_of_mem _ mem_cons_self)))
  | intersection n bounds =>
    exact congrArg (intersection n) ((map_congr_left fun b hb =>
      orUpper_eq_self (hstems b hb)).trans (map_id bounds))
  | _ => simp [rebuild]

theorem forall_children_rebuild (hf : ∀ x ∈ t.visitedParts, (f x).Every p)
    (hkept : ∀ x ∈ t.keptParts, x.Every p) : ∀ y ∈ (t.rebuild f).children, y.Every p := by
  intro y hy
  cases t with
  | array component marks =>
    rw [mem_singleton.mp hy]
    exact (hf component mem_cons_self).orUpper
  | declared c args owner marks =>
    rcases mem_append.mp hy with hy | hy
    · obtain ⟨x, hx, rfl⟩ := mem_map.mp hy
      exact hf x (mem_append_left _ hx)
    · obtain ⟨x, hx, rfl⟩ := Option.map_eq_some_iff.mp (Option.mem_toList.mp hy)
      exact hf x (mem_append_right _ (Option.mem_toList.mpr hx))
  | wildcard n upper lower marks =>
    rcases mem_cons.mp hy with rfl | hy
    · exact (hf upper mem_cons_self).orUpper
    · rw [mem_singleton.mp hy]
      exact (hf lower (mem_cons_of_mem _ mem_cons_self)).orLower
  | intersection n bounds =>
    obtain ⟨x, hx, rfl⟩ := mem_map.mp hy
    exact (hf x hx).orUpper
  | union n alternatives =>
    obtain ⟨x, hx, rfl⟩ := mem_map.mp hy
    exact hf x hx
  | executable e vars result parameters receiver thrown =>
    simp only [Ty.rebuild, children, visitedParts, mem_append, mem_cons, mem_map] at hy hf
    rcases hy with hy | rfl | rfl | ⟨x, hx, rfl⟩ | ⟨x, hx, rfl⟩
    · exact hkept y hy
    · exact hf result (by simp)
    · exact hf receiver (by simp)
    · exact hf x (by simp [hx])
    · exact hf x (by simp [hx])
  | captured => exact hkept y hy
  | _ => cases hy

/-- A property of the new layer and of what its parts become is one of the whole. -/
theorem Every.rebuild (htop : p (t.rebuild f)) (hf : ∀ x ∈ t.children, (f x).Every p)
    (hparts : ∀ x ∈ t.children, x.Every p) : (t.rebuild f).Every p :=
  .intro htop (forall_children_rebuild (fun x hx => hf x (t.visitedParts_subset x hx))
    fun x hx => hparts x (t.keptParts_subset x hx))

end Rebuild

theorem exists_mem_of_map_bare_eq (h : ss.map bare = ts.map bare) (ht : t ∈ ts) :
    ∃ s ∈ ss, s.bare = t.bare :=
  mem_map.mp (h ▸ mem_map_of_mem ht)

theorem exists_mem_of_owner_bare_eq {o p : Option Ty} (h : o.map bare = p.map bare) (ht : t ∈ p) :
    ∃ s ∈ o, s.bare = t.bare := by
  cases ht
  obtain ⟨s, rfl, hs⟩ := Option.map_eq_some_iff.mp h
  exact ⟨s, rfl, hs⟩

section Inversion

theorem eq_primitive_of_bare_eq {p} (h : t.bare = (primitive p marks).bare) :
    ∃ marks', t = primitive p marks' := by
  cases t with
  | primitive q marks' => exact ⟨marks', congrArg (primitive · marks') (primitive.inj h).1⟩
  | _ => cases h

theorem eq_null_of_bare_eq (h : t.bare = null.bare) : t = null := by
  cases t with
  | null => rfl
  | _ => cases h

theorem eq_array_of_bare_eq {component} (h : t.bare = (array component marks).bare) :
    ∃ component' marks', t = array component' marks' ∧ component'.bare = component.bare := by
  cases t with
  | array component' marks' => exact ⟨component', marks', rfl, (array.inj h).1⟩
  | _ => cases h

theorem eq_declared_of_bare_eq {c args owner} (h : t.bare = (declared c args owner marks).bare) :
    ∃ args' owner' marks', t = declared c args' owner' marks' ∧
      args'.map bare = args.map bare ∧ owner'.map bare = owner.map bare := by
  cases t with
  | declared d args' owner' marks' =>
    rw [bare_declared, bare_declared] at h
    obtain ⟨rfl, hargs, howner, -⟩ := declared.inj h
    exact ⟨args', owner', marks', rfl, hargs, howner⟩
  | _ => cases h

theorem eq_var_of_bare_eq {n v} (h : t.bare = (var n v marks).bare) :
    ∃ n' marks', t = var n' v marks' := by
  cases t with
  | var n' w marks' => exact ⟨n', marks', congrArg (var n' · marks') (var.inj h).2.1⟩
  | _ => cases h

theorem eq_wildcard_of_bare_eq {n upper lower} (h : t.bare = (wildcard n upper lower marks).bare) :
    ∃ n' upper' lower' marks', t = wildcard n' upper' lower' marks' ∧
      upper'.bare = upper.bare ∧ lower'.bare = lower.bare := by
  cases t with
  | wildcard n' upper' lower' marks' =>
    obtain ⟨-, hupper, hlower, -⟩ := wildcard.inj h
    exact ⟨n', upper', lower', marks', rfl, hupper, hlower⟩
  | _ => cases h

theorem eq_captured_of_bare_eq {token site upper lower}
    (h : t.bare = (captured token site upper lower marks).bare) :
    ∃ site' upper' lower' marks', t = captured token site' upper' lower' marks' ∧
      upper'.bare = upper.bare ∧ lower'.bare = lower.bare := by
  cases t with
  | captured token' site' upper' lower' marks' =>
    obtain ⟨rfl, -, hupper, hlower, -⟩ := captured.inj h
    exact ⟨site', upper', lower', marks', rfl, hupper, hlower⟩
  | _ => cases h

theorem eq_intersection_of_bare_eq {n bounds} (h : t.bare = (intersection n bounds).bare) :
    ∃ n' bounds', t = intersection n' bounds' ∧ bounds'.map bare = bounds.map bare := by
  cases t with
  | intersection n' bounds' =>
    rw [bare_intersection, bare_intersection] at h
    exact ⟨n', bounds', rfl, (intersection.inj h).2⟩
  | _ => cases h

end Inversion

/-- A property that a type shares with its bare form passes to types with the same bare form. -/
theorem of_bare_eq (hp : ∀ t : Ty, p t.bare ↔ p t) (h : s.bare = t.bare) (hs : p s) : p t :=
  (hp t).mp (h ▸ (hp s).mpr hs)

theorem bare_eq_null (t : Ty) : t.bare = null ↔ t = null := by
  cases t <;> simp [bare]

/-- A property that does not depend on annotations and numbers passes to types with the same bare
form. -/
theorem Every.of_bare_eq (hp : ∀ s t : Ty, s.bare = t.bare → p s → p t) (h : s.bare = t.bare)
    (hs : s.Every p) : t.Every p := by
  induction hs generalizing t with
  | @intro s top parts ih =>
    refine intro (hp s t h top) fun y hy => ?_
    have hmem : y.bare ∈ s.children.map bare := by
      rw [← children_bare, h, children_bare]
      exact mem_map_of_mem hy
    obtain ⟨x, hx, hxy⟩ := mem_map.mp hmem
    exact ih x hx hxy

/-! ### Equality of types -/

attribute [local simp] same sameAll sameOwner

private theorem sameAll_of_map_bare_eq (h : ss.map bare = ts.map bare)
    (hsame : ∀ s ∈ ss, ∀ t, bare s = bare t → same s t = true) : sameAll ss ts = true := by
  induction ss generalizing ts with
  | nil =>
    cases ts with
    | nil => rfl
    | cons t ts => cases h
  | cons s ss ih =>
    cases ts with
    | nil => cases h
    | cons t ts =>
      obtain ⟨hst, hrest⟩ := List.cons.inj h
      rw [sameAll, hsame s mem_cons_self t hst,
        ih hrest fun x hx => hsame x (mem_cons_of_mem _ hx)]
      rfl

theorem same_of_bare_eq (h : s.bare = t.bare) : s.same t = true := by
  induction s using children_induction generalizing t with
  | step s ih =>
    have hall {ss ts : List Ty} (hss : ∀ x ∈ ss, x ∈ s.children)
        (h : ss.map bare = ts.map bare) : sameAll ss ts = true :=
      sameAll_of_map_bare_eq h fun x hx _ => ih x (hss x hx)
    cases s with
    | primitive p marks =>
      obtain ⟨_, rfl⟩ := eq_primitive_of_bare_eq h.symm
      rw [same, beq_self_eq_true]
    | none =>
      cases t with
      | none => rw [same]
      | _ => cases h
    | void marks =>
      cases t with
      | void marks' => rw [same]
      | _ => cases h
    | null =>
      cases eq_null_of_bare_eq h.symm
      rw [same]
    | package p =>
      cases t with
      | package q => rw [same, package.inj h, beq_self_eq_true]
      | _ => cases h
    | var n v marks =>
      obtain ⟨_, _, rfl⟩ := eq_var_of_bare_eq h.symm
      rw [same, beq_self_eq_true]
    | captured token site upper lower marks =>
      obtain ⟨_, _, _, _, rfl, -, -⟩ := eq_captured_of_bare_eq h.symm
      rw [same, beq_self_eq_true]
    | array component marks =>
      obtain ⟨_, _, rfl, hcomponent⟩ := eq_array_of_bare_eq h.symm
      exact ih component mem_cons_self hcomponent.symm
    | declared c args owner marks =>
      obtain ⟨args', owner', marks', rfl, hargs, howner⟩ := eq_declared_of_bare_eq h.symm
      rw [same, hall (fun x hx => mem_append_left _ hx) hargs.symm, beq_self_eq_true]
      cases owner with
      | none =>
        cases Option.map_eq_none_iff.mp howner
        rfl
      | some o =>
        obtain ⟨o', rfl, ho⟩ := Option.map_eq_some_iff.mp howner
        exact ih o (mem_append_right _ mem_cons_self) ho.symm
    | wildcard n upper lower marks =>
      obtain ⟨_, _, _, _, rfl, hupper, hlower⟩ := eq_wildcard_of_bare_eq h.symm
      rw [same, ih upper mem_cons_self hupper.symm,
        ih lower (mem_cons_of_mem _ mem_cons_self) hlower.symm]
      rfl
    | intersection n bounds =>
      obtain ⟨n', bounds', rfl, hbounds⟩ := eq_intersection_of_bare_eq h.symm
      exact hall (fun x hx => hx) hbounds.symm
    | union n alternatives =>
      cases t with
      | union n' alternatives' =>
        rw [bare_union, bare_union] at h
        exact hall (fun x hx => hx) (union.inj h).2
      | _ => cases h
    | executable e vars result parameters receiver thrown =>
      cases t with
      | executable e' vars' result' parameters' receiver' thrown' =>
        rw [bare_executable, bare_executable] at h
        obtain ⟨rfl, hvars, hresult, hparameters, hreceiver, hthrown⟩ := executable.inj h
        rw [same, hall (by simp +contextual [children]) hvars,
          ih result (by simp [children]) hresult,
          hall (by simp +contextual [children]) hparameters,
          ih receiver (by simp [children]) hreceiver,
          hall (by simp +contextual [children]) hthrown, beq_self_eq_true]
        rfl
      | _ => cases h

/-- A captured variable is the one that belongs to its token. -/
def Tokened (captures : Nat → Ty) (t : Ty) : Prop :=
  ∀ token site upper lower marks, t = captured token site upper lower marks →
    t.bare = captures token

/-- Equal types differ in annotations and numbers only, as long as captured variables are determined
by their tokens. -/
theorem bare_eq_of_same {captures : Nat → Ty} (h : s.same t = true)
    (hs : s.Every (Tokened captures)) (ht : t.Every (Tokened captures)) : s.bare = t.bare := by
  -- One case for each pair of constructors that `same` compares, and then those for lists and
  -- owners.
  induction s, t using fun motive => same.induct motive
    (fun o p => sameOwner o p = true → (∀ x ∈ o, x.Every (Tokened captures)) →
      (∀ x ∈ p, x.Every (Tokened captures)) → bareOwner o = bareOwner p)
    (fun ss ts => sameAll ss ts = true → (∀ x ∈ ss, x.Every (Tokened captures)) →
      (∀ x ∈ ts, x.Every (Tokened captures)) → bareAll ss = bareAll ts) with
  | case1 | case7 | case13 => simpa [same, bare] using h
  | case2 | case3 | case4 => rfl
  | case5 s _ t _ ih =>
    rw [bare, bare, ih h (hs.part mem_cons_self) (ht.part mem_cons_self)]
  | case6 c ss o _ d ts p _ ihargs ihowner =>
    simp only [same, Bool.and_eq_true, beq_iff_eq] at h
    obtain ⟨⟨rfl, hargs⟩, howner⟩ := h
    rw [bare, bare,
      ihargs hargs (fun x hx => hs.part (mem_append_left _ hx))
        (fun x hx => ht.part (mem_append_left _ hx)),
      ihowner howner (fun x hx => hs.part (mem_append_right _ (Option.mem_toList.mpr hx)))
        (fun x hx => ht.part (mem_append_right _ (Option.mem_toList.mpr hx)))]
  | case8 _ u l _ _ u' l' _ ihupper ihlower =>
    simp only [same, Bool.and_eq_true] at h
    rw [bare, bare, ihupper h.1 (hs.part (by simp [children])) (ht.part (by simp [children])),
      ihlower h.2 (hs.part (by simp [children])) (ht.part (by simp [children]))]
  | case9 =>
    simp only [same, beq_iff_eq] at h
    subst h
    rw [hs.top _ _ _ _ _ rfl, ht.top _ _ _ _ _ rfl]
  | case10 _ ss _ ts ih | case11 _ ss _ ts ih =>
    rw [bare, bare, ih h (fun x hx => hs.part hx) (fun x hx => ht.part hx)]
  | case12 e vs r ps s ts e' vs' r' ps' s' ts' ihvs ihr ihps ihs ihts =>
    simp only [same, Bool.and_eq_true, beq_iff_eq] at h
    obtain ⟨⟨⟨⟨⟨rfl, hvs⟩, hr⟩, hps⟩, hreceiver⟩, hts⟩ := h
    rw [bare, bare, ihr hr (hs.part (by simp [children])) (ht.part (by simp [children])),
      ihs hreceiver (hs.part (by simp [children])) (ht.part (by simp [children])),
      ihvs hvs (fun x hx => hs.part (by simp [children, hx]))
        (fun x hx => ht.part (by simp [children, hx])),
      ihps hps (fun x hx => hs.part (by simp [children, hx]))
        (fun x hx => ht.part (by simp [children, hx])),
      ihts hts (fun x hx => hs.part (by simp [children, hx]))
        (fun x hx => ht.part (by simp [children, hx]))]
  | case14 =>
    rw [same] at h
    · cases h
    all_goals assumption
  | case15 => rfl
  | case16 s ss t ts ih ihs h hs ht =>
    simp only [sameAll, Bool.and_eq_true] at h
    rw [bareAll, bareAll, ih h.1 (hs s mem_cons_self) (ht t mem_cons_self),
      ihs h.2 (fun x hx => hs x (mem_cons_of_mem _ hx))
        fun x hx => ht x (mem_cons_of_mem _ hx)]
  | case17 _ _ _ _ h =>
    rw [sameAll] at h
    · cases h
    all_goals assumption
  | case18 => rfl
  | case19 s t ih h hs ht => rw [bareOwner, bareOwner, ih h (hs s rfl) (ht t rfl)]
  | case20 _ _ _ _ h =>
    rw [sameOwner] at h
    · cases h
    all_goals assumption

theorem same_eq_of_same (h : s.same t = true) (u : Ty) : s.same u = t.same u := by
  induction s, t using fun motive => same.induct motive
    (fun o p => sameOwner o p = true → ∀ q, sameOwner o q = sameOwner p q)
    (fun ss ts => sameAll ss ts = true → ∀ us, sameAll ss us = sameAll ts us) generalizing u with
  | case1 p a q b =>
    cases beq_iff_eq.mp h
    cases u <;> rfl
  | case2 => rfl
  | case3 => cases u <;> rfl
  | case4 => rfl
  | case5 s a t b ih =>
    cases u with
    | array u c => exact ih h u
    | _ => rfl
  | case6 c ss o a d ts p b ihargs ihowner =>
    simp only [same, Bool.and_eq_true, beq_iff_eq] at h
    obtain ⟨⟨rfl, hargs⟩, howner⟩ := h
    cases u with
    | declared e us q marks => simp only [same, ihargs hargs, ihowner howner]
    | _ => rfl
  | case7 n v a n' w b =>
    cases beq_iff_eq.mp h
    cases u <;> rfl
  | case8 n u₁ l₁ a n' u₂ l₂ b ihu ihl =>
    simp only [same, Bool.and_eq_true] at h
    cases u with
    | wildcard n'' u₃ l₃ c => simp only [same, ihu h.1, ihl h.2]
    | _ => rfl
  | case9 =>
    cases beq_iff_eq.mp h
    cases u <;> rfl
  | case10 n ss n' ts ih =>
    cases u with
    | intersection n'' us => exact ih h us
    | _ => rfl
  | case11 n ss n' ts ih =>
    cases u with
    | union n'' us => exact ih h us
    | _ => rfl
  | case12 e vs r ps s ts e' vs' r' ps' s' ts' ihvs ihr ihps ihs ihts =>
    simp only [same, Bool.and_eq_true, beq_iff_eq] at h
    obtain ⟨⟨⟨⟨⟨rfl, hvs⟩, hr⟩, hps⟩, hreceiver⟩, hts⟩ := h
    cases u with
    | executable => simp only [same, ihvs hvs, ihr hr, ihps hps, ihs hreceiver, ihts hts]
    | _ => rfl
  | case13 =>
    cases beq_iff_eq.mp h
    cases u <;> rfl
  | case14 =>
    rw [same] at h
    · cases h
    all_goals assumption
  | case15 => rfl
  | case16 s ss t ts ih ihs h us =>
    simp only [sameAll, Bool.and_eq_true] at h
    cases us with
    | nil => rfl
    | cons u us => rw [sameAll, sameAll, ih h.1, ihs h.2]
  | case17 _ _ _ _ h =>
    rw [sameAll] at h
    · cases h
    all_goals assumption
  | case18 => rfl
  | case19 s t ih h q =>
    cases q with
    | none => rfl
    | some u => exact ih h u
  | case20 _ _ _ _ h =>
    rw [sameOwner] at h
    · cases h
    all_goals assumption

theorem same_refl (t : Ty) : t.same t = true :=
  same_of_bare_eq rfl

theorem same_trans {u} (hst : s.same t = true) (htu : t.same u = true) : s.same u = true :=
  (same_eq_of_same hst u).trans htu

theorem same_symm (h : s.same t = true) : t.same s = true :=
  (same_eq_of_same h s).symm.trans (same_refl s)

theorem sameAll_of_forall₂ (h : Forall₂ (fun s t => s.same t = true) ss ts) :
    sameAll ss ts = true := by
  induction h with
  | nil => rfl
  | cons hst _ ih => rw [sameAll, hst, ih, Bool.and_self]

theorem forall₂_of_sameAll (h : sameAll ss ts = true) :
    Forall₂ (fun s t => s.same t = true) ss ts := by
  induction ss generalizing ts with
  | nil =>
    cases ts with
    | nil => exact .nil
    | cons t ts => cases h
  | cons s ss ih =>
    cases ts with
    | nil => cases h
    | cons t ts =>
      rw [sameAll, Bool.and_eq_true] at h
      exact .cons h.1 (ih h.2)

section Same

theorem kind_eq_of_same (h : s.same t = true) : s.kind = t.kind := by
  cases s <;> cases t <;>
    first | rfl | cases h | exact congrArg TypeKind.primitive (beq_iff_eq.mp h)

theorem exists_eq_declared_of_same {c args owner}
    (h : (declared c args owner marks).same t = true) :
    ∃ args' owner' marks', t = declared c args' owner' marks' ∧ sameAll args args' = true ∧
      sameOwner owner owner' = true := by
  cases t with
  | declared d args' owner' marks' =>
    simp only [same, Bool.and_eq_true, beq_iff_eq] at h
    obtain ⟨⟨rfl, hargs⟩, howner⟩ := h
    exact ⟨args', owner', marks', rfl, hargs, howner⟩
  | _ => cases h

theorem same_orUpper (h : s.same t = true) : s.orUpper.same t.orUpper = true := by
  cases s with
  | wildcard n upper lower marks =>
    cases t with
    | wildcard n' upper' lower' marks' =>
      rw [same, Bool.and_eq_true] at h
      exact h.1
    | _ => cases h
  | _ =>
    cases t with
    | wildcard => cases h
    | _ => exact h

theorem same_orLower (h : s.same t = true) : s.orLower.same t.orLower = true := by
  cases s with
  | wildcard n upper lower marks =>
    cases t with
    | wildcard n' upper' lower' marks' =>
      rw [same, Bool.and_eq_true] at h
      exact h.2
    | _ => cases h
  | _ =>
    cases t with
    | wildcard => cases h
    | _ => exact h

end Same

end NominalTypes.Ty
