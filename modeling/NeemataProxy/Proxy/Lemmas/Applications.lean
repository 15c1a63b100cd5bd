import NeemataProxy.Proxy.Lemmas.Updates
import NeemataProxy.Proxy.Routes

/-!
# What `validate_applications` accepts
-/

namespace NeemataProxy

open Lib Options

/-- What the loop has seen behind a list of applications that it accepts. -/
def seenAfter (applications : List ApplicationOptionsParsed) : SeenApplications where
  defaultCount := applications.countP isDefault
  appNames := (applications.map ApplicationOptionsParsed.name).toFinset
  subdomainRoutes := ((applications.filterMap subdomainName).map Str.toAsciiLowercase).toFinset
  pathRoutes := (applications.filterMap pathName).toFinset

/-- An application that stays separate from those before it. -/
structure Admits (before : List ApplicationOptionsParsed) (a : ApplicationOptionsParsed) : Prop where
  name : a.name ∉ before.map ApplicationOptionsParsed.name
  subdomain : ∀ n, a.routing = .subdomain n →
    n ≠ [] ∧ Str.toAsciiLowercase n ∉ (before.filterMap subdomainName).map Str.toAsciiLowercase
  path : ∀ n, a.routing = .path n → (n ≠ [] ∧ '/' ∉ n) ∧ n ∉ before.filterMap pathName

theorem separate_snoc {before : List ApplicationOptionsParsed} (h : Separate before) (a : ApplicationOptionsParsed) :
    Separate (before ++ [a]) ↔ Admits before a := by
  obtain ⟨hnames, hsub, hsubkeys, hpaths, hpathkeys⟩ := h
  constructor
  · rintro ⟨hnames', hsub', hsubkeys', hpaths', hpathkeys'⟩
    simp only [List.map_append, List.filterMap_append, List.mem_append, List.nodup_append'] at *
    refine ⟨fun hmem => hnames'.2.2 hmem (by simp), fun n hn => ⟨hsub' n (.inr ?_), fun hmem => ?_⟩,
      fun n hn => ⟨hpaths' n (.inr ?_), fun hmem => ?_⟩⟩
    · simp [subdomainName, hn]
    · exact hsubkeys'.2.2 hmem (by simp [subdomainName, hn])
    · simp [pathName, hn]
    · exact hpathkeys'.2.2 hmem (by simp [pathName, hn])
  · rintro ⟨hname, hsub', hpath'⟩
    have hsubs : ∀ n ∈ [a].filterMap subdomainName, a.routing = .subdomain n := fun n hn => by
      simpa using mem_filterMap_subdomainName.mp hn
    have hpaths₁ : ∀ n ∈ [a].filterMap pathName, a.routing = .path n := fun n hn => by
      simpa using mem_filterMap_pathName.mp hn
    constructor
    · rw [List.map_append]
      exact hnames.append (List.nodup_singleton _) (by simpa using hname)
    · rw [List.filterMap_append]
      exact fun n hn => (List.mem_append.mp hn).elim (hsub n) fun hn => (hsub' n (hsubs n hn)).1
    · rw [List.filterMap_append, List.map_append]
      refine hsubkeys.append ?_ ?_
      · cases hr : a.routing <;> simp [subdomainName, hr]
      · rintro k hk hk'
        obtain ⟨n, hn, rfl⟩ := List.mem_map.mp hk'
        exact (hsub' n (hsubs n hn)).2 hk
    · rw [List.filterMap_append]
      exact fun n hn => (List.mem_append.mp hn).elim (hpaths n) fun hn => (hpath' n (hpaths₁ n hn)).1
    · rw [List.filterMap_append]
      refine hpathkeys.append ?_ fun n hn hn' => (hpath' n (hpaths₁ n hn')).2 hn
      cases hr : a.routing <;> simp [pathName, hr]

theorem toFinset_snoc (l : List Str) (n : Str) : (l ++ [n]).toFinset = insert n l.toFinset := by
  ext m
  simp

/-- One turn of the loop accepts an application that stays separate from those before it. -/
theorem validateApplication_seenAfter (before : List ApplicationOptionsParsed) (a : ApplicationOptionsParsed)
    (s : SeenApplications) :
    validateApplication (seenAfter before) a = .ok s ↔ Admits before a ∧ s = seenAfter (before ++ [a]) := by
  by_cases hname : a.name ∈ before.map ApplicationOptionsParsed.name
  · have hno : ¬ Admits before a := fun h => h.name hname
    simp [validateApplication, seenAfter, List.mem_toFinset, hname, hno]
  · have hname' : a.name ∉ (seenAfter before).appNames := by simpa [seenAfter] using hname
    have hnames : insert a.name (seenAfter before).appNames = (seenAfter (before ++ [a])).appNames := by
      simp only [seenAfter, List.map_append, List.map_cons, List.map_nil, toFinset_snoc]
    rw [validateApplication, if_neg hname', hnames]
    cases hr : a.routing with
    | default =>
        have hadmits : Admits before a := ⟨hname, by simp [hr], by simp [hr]⟩
        simp [hadmits, seenAfter, subdomainName, pathName, isDefault, hr, eq_comm]
    | subdomain n =>
        have hadmits : Admits before a ↔ n ≠ [] ∧
            Str.toAsciiLowercase n ∉ (before.filterMap subdomainName).map Str.toAsciiLowercase := by
          refine ⟨fun h => h.subdomain n hr, fun h => ⟨hname, fun n' hn' => ?_, by simp [hr]⟩⟩
          obtain rfl := ApplicationRoutingParsed.subdomain.inj (hr.symm.trans hn')
          exact h
        have hafter : seenAfter (before ++ [a]) =
            { seenAfter before with
              appNames := (seenAfter (before ++ [a])).appNames
              subdomainRoutes := insert (Str.toAsciiLowercase n) (seenAfter before).subdomainRoutes } := by
          simp [seenAfter, subdomainName, pathName, isDefault, hr]
        have hkey : Str.toAsciiLowercase n ∈ (seenAfter before).subdomainRoutes ↔
            Str.toAsciiLowercase n ∈ (before.filterMap subdomainName).map Str.toAsciiLowercase := List.mem_toFinset
        rw [hadmits, hafter]
        by_cases hne : n = []
        · simp [hne]
        · by_cases hmem : Str.toAsciiLowercase n ∈ (before.filterMap subdomainName).map Str.toAsciiLowercase
          · simp only [if_neg hne, if_pos (hkey.mpr hmem)]
            simp [hmem]
          · simp only [if_neg hne, if_neg (mt hkey.mp hmem)]
            simp [hne, hmem, eq_comm]
    | path n =>
        have hadmits : Admits before a ↔ (n ≠ [] ∧ '/' ∉ n) ∧ n ∉ before.filterMap pathName := by
          refine ⟨fun h => h.path n hr, fun h => ⟨hname, by simp [hr], fun n' hn' => ?_⟩⟩
          obtain rfl := ApplicationRoutingParsed.path.inj (hr.symm.trans hn')
          exact h
        have hafter : seenAfter (before ++ [a]) =
            { seenAfter before with
              appNames := (seenAfter (before ++ [a])).appNames
              pathRoutes := insert n (seenAfter before).pathRoutes } := by
          simp [seenAfter, subdomainName, pathName, isDefault, hr]
        have hkey : n ∈ (seenAfter before).pathRoutes ↔ n ∈ before.filterMap pathName := List.mem_toFinset
        rw [hadmits, hafter]
        by_cases hne : n = []
        · simp [hne]
        · by_cases hslash : '/' ∈ n
          · simp [hne, hslash]
          · by_cases hmem : n ∈ before.filterMap pathName
            · simp only [if_neg hne, if_neg hslash, if_pos (hkey.mpr hmem)]
              simp [hmem]
            · simp only [if_neg hne, if_neg hslash, if_neg (mt hkey.mp hmem)]
              simp [hne, hslash, hmem, eq_comm]

theorem foldlM_validateApplication {before : List ApplicationOptionsParsed} (h : Separate before)
    (applications : List ApplicationOptionsParsed) (s : SeenApplications) :
    applications.foldlM validateApplication (seenAfter before) = .ok s ↔
      Separate (before ++ applications) ∧ s = seenAfter (before ++ applications) := by
  induction applications generalizing before with
  | nil => simp [h, pure, Except.pure, eq_comm]
  | cons a l ih =>
      rw [List.foldlM_cons]
      have hstep := validateApplication_seenAfter before a
      rw [show before ++ a :: l = before ++ [a] ++ l from by simp]
      by_cases hadmits : Admits before a
      · rw [(hstep _).mpr ⟨hadmits, rfl⟩]
        exact ih ((separate_snoc h a).mpr hadmits)
      · -- the loop ends at an application that is not separate
        obtain ⟨e, he⟩ : ∃ e, validateApplication (seenAfter before) a = .error e := by
          cases hv : validateApplication (seenAfter before) a with
          | error e => exact ⟨e, rfl⟩
          | ok s' => exact absurd ((hstep s').mp hv).1 hadmits
        rw [he]
        refine ⟨(fun h => by cases h), fun hall => ?_⟩
        exact absurd ((separate_snoc h a).mp hall.1.of_append) hadmits

/-- `validate_applications` accepts the lists of applications with names and routes of their own. -/
theorem validateApplications_iff (applications : List ApplicationOptionsParsed) :
    validateApplications applications = .ok () ↔ Distinct applications := by
  have hnil : Separate [] := ⟨List.nodup_nil, nofun, List.nodup_nil, nofun, List.nodup_nil⟩
  have hfold := foldlM_validateApplication hnil applications
  unfold validateApplications
  change applications.foldlM validateApplication (seenAfter []) >>= _ = _ ↔ _
  cases hv : applications.foldlM validateApplication (seenAfter []) with
  | error e =>
      refine ⟨(fun h => by cases h), fun h => ?_⟩
      have := (hfold _).mpr ⟨h.toSeparate, rfl⟩
      simp [hv] at this
  | ok s =>
      obtain ⟨hseparate, rfl⟩ := (hfold s).mp hv
      have hcount : (seenAfter ([] ++ applications)).defaultCount = applications.countP isDefault := rfl
      simp only [bind, Except.bind, hcount]
      by_cases hdefaults : 1 < applications.countP isDefault
      · rw [if_pos hdefaults]
        exact ⟨(fun h => by cases h), fun h => absurd h.defaults (by omega)⟩
      · rw [if_neg hdefaults]
        exact ⟨fun _ => ⟨hseparate, by omega⟩, fun _ => rfl⟩

/-- The applications of accepted options are those that were parsed and validated. -/
theorem applications_of_parse {options : ProxyOptions} {parsed : ProxyOptionsParsed} (h : parseProxyOptions options = .ok parsed) :
    options.applications.mapM parseApplicationOptions = .ok parsed.applications ∧
      validateApplications parsed.applications = .ok () := by
  obtain ⟨applications, hmap, h⟩ := exists_of_bind_eq_ok h
  obtain ⟨⟨⟩, hvalid, h⟩ := exists_of_bind_eq_ok h
  obtain ⟨sticky, -, h⟩ := exists_of_bind_eq_ok h
  obtain ⟨limits, -, h⟩ := exists_of_bind_eq_ok h
  obtain ⟨timeouts, -, h⟩ := exists_of_bind_eq_ok h
  obtain rfl := Except.ok.inj h
  exact ⟨hmap, hvalid⟩

theorem distinct_of_parse {options : ProxyOptions} {parsed : ProxyOptionsParsed}
    (h : parseProxyOptions options = .ok parsed) : Distinct parsed.applications :=
  (validateApplications_iff _).mp (applications_of_parse h).2

end NeemataProxy
