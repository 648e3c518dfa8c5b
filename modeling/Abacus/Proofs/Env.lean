import Abacus.Expr.Eval
import Abacus.Proofs.Answer
import Mathlib.Data.List.Induction

/-!
# Environments and lists of names

An environment either binds all names of a list, and then their values can be laid out in a row, or
some name is the first that it does not bind, and then that name is the fault. Which name is the
first does not change when later repetitions are left out.
-/

namespace Abacus.Env

open Answer

/-- Every one of the names has a value. -/
def Binds (env : Env) (names : List String) : Prop :=
  ∀ x ∈ names, ∃ v, env.get? x = some v

/-- Whatever has a value keeps it. -/
def ExtendedBy (env env' : Env) : Prop :=
  ∀ x v, env.get? x = some v → env'.get? x = some v

/-- The first of the names that has no value. -/
def missing? (env : Env) (names : List String) : Option String :=
  names.find? fun x => (env.get? x).isNone

theorem value_eq_ok {env : Env} {x : String} {v : Int} :
    env.value x = .ok v ↔ env.get? x = some v := by
  unfold value
  cases env.get? x <;> simp

theorem value_congr {env env' : Env} {x : String} (h : env.get? x = env'.get? x) :
    env.value x = env'.value x := by
  rw [value, value, h]

/-- The names that have a value. -/
def names (env : Env) : List String :=
  env.bindings.map Prod.fst

theorem mem_names_iff {env : Env} {x : String} : x ∈ env.names ↔ ∃ v, env.get? x = some v := by
  rw [names, get?, ← Option.isSome_iff_exists, List.lookup_isSome_iff, List.mem_map]
  refine exists_congr fun b => and_congr_right fun _ => ?_
  rw [beq_iff_eq, eq_comm]

theorem value_of_unbound {env : Env} {x : String} (h : env.get? x = none) :
    env.value x = .error (.unboundVariable x) := by
  rw [value, h]

theorem Binds.append {env : Env} {xs ys : List String} (h : env.Binds (xs ++ ys)) :
    env.Binds xs ∧ env.Binds ys :=
  ⟨fun x hx => h x (List.mem_append_left ys hx), fun x hx => h x (List.mem_append_right xs hx)⟩

theorem missing?_append (env : Env) (xs ys : List String) :
    env.missing? (xs ++ ys) = (env.missing? xs).or (env.missing? ys) :=
  List.find?_append

theorem missing?_eq_none_iff {env : Env} {names : List String} :
    env.missing? names = none ↔ env.Binds names := by
  unfold missing? Binds
  rw [List.find?_eq_none]
  constructor
  · intro h x hx
    have hn := h x hx
    rwa [Option.isNone_iff_eq_none, ← ne_eq, Option.ne_none_iff_exists'] at hn
  · intro h x hx
    obtain ⟨v, hv⟩ := h x hx
    simp [hv]

theorem missing?_cons_of_bound {env : Env} {x : String} {v : Int} (h : env.get? x = some v)
    (xs : List String) : env.missing? (x :: xs) = env.missing? xs :=
  List.find?_cons_of_neg (by simp [h])

theorem missing?_cons_of_unbound {env : Env} {x : String} (h : env.get? x = none)
    (xs : List String) : env.missing? (x :: xs) = some x :=
  List.find?_cons_of_pos (by simp [h])

/-- In front of the first name that has no value all names have one. -/
theorem exists_split_of_missing {env : Env} {names : List String} {x : String}
    (h : env.missing? names = some x) :
    ∃ before after, names = before ++ x :: after ∧ env.Binds before ∧ env.get? x = none := by
  obtain ⟨hx, before, after, rfl, hbefore⟩ := List.find?_eq_some_iff_append.1 h
  refine ⟨before, after, rfl, fun y hy => ?_, Option.isNone_iff_eq_none.1 hx⟩
  have hbound : (!(env.get? y).isNone) = true := hbefore y hy
  rwa [Option.not_isNone, Option.isSome_iff_exists] at hbound

theorem eraseDups_concat (names : List String) (x : String) :
    (names ++ [x]).eraseDups = if x ∈ names then names.eraseDups else names.eraseDups ++ [x] := by
  rw [List.eraseDups_append]
  split
  · rename_i hx
    have hr : [x].removeAll names = [] := by simp [List.removeAll, hx]
    rw [hr, List.eraseDups_nil, List.append_nil]
  · rename_i hx
    have hr : [x].removeAll names = [x] := by simp [List.removeAll, hx]
    rw [hr, List.eraseDups_cons, List.filter_nil, List.eraseDups_nil]

/-- Names that are kept apart are repeated where they were repeated before. -/
theorem eraseDups_map {f : String → String} {names : List String}
    (h : ∀ x ∈ names, ∀ y ∈ names, f x = f y → x = y) :
    (names.map f).eraseDups = names.eraseDups.map f := by
  induction names using List.reverseRecOn with
  | nil => rfl
  | append_singleton names x ih =>
    have hnames : (names.map f).eraseDups = names.eraseDups.map f :=
      ih fun a ha b hb => h a (List.mem_append_left _ ha) b (List.mem_append_left _ hb)
    have hmem : f x ∈ names.map f ↔ x ∈ names := by
      refine ⟨fun hx => ?_, List.mem_map_of_mem⟩
      obtain ⟨y, hy, hxy⟩ := List.mem_map.1 hx
      have heq : y = x := h y (List.mem_append_left _ hy) x (List.mem_append_right _
        (List.mem_singleton.2 rfl)) hxy
      rwa [← heq]
    rw [List.map_append, List.map_singleton, eraseDups_concat, eraseDups_concat, hnames]
    simp only [hmem]
    split
    · rfl
    · rw [List.map_append, List.map_singleton]

/-- A later repetition of a name is never the first one missing. -/
theorem missing?_eraseDups (env : Env) (names : List String) :
    env.missing? names.eraseDups = env.missing? names := by
  induction names using List.reverseRecOn with
  | nil => rfl
  | append_singleton names x ih =>
    rw [eraseDups_concat, missing?_append]
    split
    · rename_i hx
      rw [ih]
      cases hm : env.missing? names with
      | some y => rfl
      | none =>
        obtain ⟨v, hv⟩ := missing?_eq_none_iff.1 hm x hx
        rw [missing?_cons_of_bound hv]
        rfl
    · rw [missing?_append, ih]

/-- The row of values ends at the first name that has none. -/
theorem mapM_value_of_missing {env : Env} {names : List String} {x : String}
    (h : env.missing? names = some x) : names.mapM env.value = .error (.unboundVariable x) := by
  induction names with
  | nil => cases h
  | cons y names ih =>
    rw [List.mapM_cons]
    cases hy : env.get? y with
    | none =>
      rw [missing?_cons_of_unbound hy, Option.some.injEq] at h
      rw [value_of_unbound hy, h, error_bind]
    | some v =>
      rw [missing?_cons_of_bound hy] at h
      rw [value_eq_ok.2 hy, ok_bind, ih h, error_bind]

theorem exists_mapM_value {env : Env} {names : List String} (h : env.Binds names) :
    ∃ values, names.mapM env.value = .ok values := by
  induction names with
  | nil => exact ⟨[], rfl⟩
  | cons y names ih =>
    obtain ⟨v, hv⟩ := h y List.mem_cons_self
    obtain ⟨values, hvs⟩ := ih fun x hx => h x (List.mem_cons_of_mem y hx)
    refine ⟨v :: values, ?_⟩
    rw [List.mapM_cons, value_eq_ok.2 hv, ok_bind, hvs, ok_bind, pure_eq_ok]

theorem binds_of_mapM_value {env : Env} {names : List String} {values : List Int}
    (h : names.mapM env.value = .ok values) : env.Binds names := by
  rw [← missing?_eq_none_iff, Option.eq_none_iff_forall_ne_some]
  intro x hx
  rw [mapM_value_of_missing hx] at h
  cases h

/-- Every value stands where its name stands, and there are no others. -/
theorem getElem?_of_mapM_value {env : Env} {names : List String} {values : List Int}
    (h : names.mapM env.value = .ok values) (i : Nat) :
    values[i]? = names[i]?.bind env.get? := by
  induction names generalizing values i with
  | nil => cases h; rfl
  | cons y names ih =>
    rw [List.mapM_cons] at h
    obtain ⟨v, hv, h⟩ := bind_eq_ok.1 h
    obtain ⟨rest, hrest, h⟩ := bind_eq_ok.1 h
    cases h
    cases i with
    | zero => simpa using (value_eq_ok.1 hv).symm
    | succ i => simpa using ih hrest i

end Abacus.Env
