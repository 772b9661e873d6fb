import PromqlServer.Prometheus.Endpoint
import PromqlServer.Proofs.Url.Descents

/-!
`endpoint` and `root_endpoint` of a base that is served below a path. The path of its URL was read
once and is read again together with the path of the API; as the first reading leaves it in normal
form, the second one changes nothing (`Base.endpoint_eq`). The URL is below the base as long as no
segment of the API path is a double dot (`Base.isAbove_endpoint`).
-/

namespace PromqlServer.Prometheus

open PromqlServer.Text PromqlServer.Url

/-! ## Paths of the API -/

/-- Letters, digits and four marks, which mean the same encoded or not. -/
def isUnreserved (c : Char) : Bool := isWordChar c || c = '-' || c = '.' || c = '~'

/-- Unreserved characters with slashes between them, and nowhere a dot or two of them alone. -/
def IsApiPath (path : List Char) : Prop :=
  ∀ segment ∈ splitAt '/' path,
    segment.all isUnreserved = true ∧ segment ≠ ['.'] ∧ segment ≠ ['.', '.']

instance : DecidablePred IsApiPath := fun _ => List.decidableBAll _ _

section Paths

variable {c : Char} {rest : List Char}

theorem isSegmentChar_of_isUnreserved (h : isUnreserved c = true) : isSegmentChar c = true := by
  simp only [isUnreserved, Bool.or_eq_true, decide_eq_true_eq] at h
  rcases h with ((hword | rfl) | rfl) | rfl
  · exact isSegmentChar_of_isWordChar hword
  all_goals decide

theorem IsApiPath.segments (h : IsApiPath rest) : ∀ s ∈ splitAt '/' rest, IsSegment s := by
  intro s hs
  obtain ⟨hall, hsingle, hdouble⟩ := h s hs
  have hchars : ∀ c ∈ s, isUnreserved c = true := List.all_eq_true.1 hall
  have hpercent : '%' ∉ s := by
    intro hmem
    have hunreserved := hchars '%' hmem
    revert hunreserved
    decide
  exact ⟨fun c hc => isSegmentChar_of_isUnreserved (hchars c hc),
    not_dot_of_notMem hpercent hsingle hdouble⟩

theorem IsApiPath.isNormal (h : IsApiPath ('/' :: rest)) : IsNormal ('/' :: rest) := by
  refine ⟨splitAt '/' rest, splitAt_ne_nil '/' rest, ?_, (joinSegments_splitAt rest).symm⟩
  intro s hs
  apply h.segments s
  rw [splitAt, if_pos rfl]
  exact List.mem_cons_of_mem _ hs

end Paths

/-! ## Bases -/

section Bases

variable {b b' : Base} {text p : String}

theorem Base.parse_isNormal (h : Base.parse text = .ok b)
    (hscheme : b.url.scheme = "http" ∨ b.url.scheme = "https") :
    b.url.kind = .special ∧ b.url.rigid = false ∧ IsNormal b.url.path := by
  have hkind : b.url.kind = .special := by
    rcases hscheme with hscheme | hscheme <;> rw [Url.kind, hscheme] <;> rfl
  unfold Base.parse at h
  split at h
  · cases h
  · rename_i url hurl
    split at h
    · cases h
    · cases h
      exact ⟨hkind, Url.parse_isNormal hurl hkind⟩

/-- A path of the API is put below the path of the base, and both stay as they are. -/
theorem Base.endpoint_eq (hkind : b.url.kind = .special) (hrigid : b.url.rigid = false)
    (hbase : IsNormal b.url.path) (hp : IsApiPath p.toList) :
    b.endpoint p = { b.url with
      path := dropSuffix (· = '/') b.url.path ++ '/' :: p.toList.dropWhile (· = '/')
      query := none } := by
  have hjoined : IsNormal (String.ofList (Base.joinedPath b.url.path p.toList)).toList := by
    rw [String.toList_ofList]
    exact hbase.extend fun s hs => hp.segments s (splitAt_dropWhile _ hs)
  rw [Base.endpoint, withPath_of_isNormal hkind hrigid hjoined, String.toList_ofList]
  rfl

/-- The URL is on the server of the base, and its path goes on behind that of the base. -/
structure Base.IsAbove (b : Base) (url : Url) : Prop where
  scheme : url.scheme = b.url.scheme
  authority : url.authority = b.url.authority
  path : dropSuffix (· = '/') b.url.path ++ ['/'] <+: url.path

/-- A path is put below that of the base, unless it leads up again. -/
theorem Base.isAbove_endpoint (hkind : b.url.kind = .special) (hrigid : b.url.rigid = false)
    (hbase : IsNormal b.url.path) (hp : Descends (p.toList.dropWhile (· = '/'))) :
    b.IsAbove (b.endpoint p) := by
  obtain ⟨hscheme, hauthority⟩ := withPath_frame b.url
    (String.ofList (Base.joinedPath b.url.path p.toList))
  obtain ⟨segments, -, hsegments, hpath⟩ := hbase
  obtain ⟨kept, hkept, heq⟩ := dropSuffix_joinSegments hsegments
  refine ⟨hscheme, hauthority, ?_⟩
  rw [hpath, heq]
  refine prefix_withPath hkind hrigid (fun s hs => hsegments s (hkept.subset hs)) ?_ hp
  rw [String.toList_ofList, hpath, ← heq]
  rfl

theorem Base.rootEndpoint_eq (hkind : b.url.kind = .special) (hrigid : b.url.rigid = false)
    (hp : IsNormal p.toList) :
    b.rootEndpoint p = { b.url with path := p.toList, query := none } := by
  rw [Base.rootEndpoint, withPath_of_isNormal hkind hrigid hp]
  rfl

/-- At the root of a server it does not matter where the base is. -/
theorem Base.rootEndpoint_congr (hrigid : b.url.rigid = false) (hrigid' : b'.url.rigid = false)
    (hscheme : b'.url.scheme = b.url.scheme) (hauthority : b'.url.authority = b.url.authority)
    (hfragment : b'.url.fragment = b.url.fragment) (p : String) :
    b'.rootEndpoint p = b.rootEndpoint p := by
  simp only [Base.rootEndpoint, withPath, withoutQuery, Url.kind, hrigid, hrigid', hscheme,
    hauthority, hfragment, Bool.false_eq_true, if_false]

end Bases

/-- A path of the API below a base of HTTP: all of the base stays but its query and the slashes at
the end of its path, and the path of the API follows without the slashes at its start. So bases that
differ in no more than that have the same endpoints. At the root of the server nothing of the path
of the base is left, which is the same if it has nothing but slashes. -/
theorem endpoints_compose {text p : String} {b : Base} (hparse : Base.parse text = .ok b)
    (hscheme : b.url.scheme = "http" ∨ b.url.scheme = "https") (hp : IsApiPath p.toList) :
    b.endpoint p = { b.url with
        path := dropSuffix (· = '/') b.url.path ++ '/' :: p.toList.dropWhile (· = '/')
        query := none } ∧
      (∀ text' b', Base.parse text' = .ok b' → b'.url.scheme = b.url.scheme →
        b'.url.authority = b.url.authority → b'.url.fragment = b.url.fragment →
        (dropSuffix (· = '/') b'.url.path = dropSuffix (· = '/') b.url.path →
          b'.endpoint p = b.endpoint p) ∧
        b'.rootEndpoint p = b.rootEndpoint p) ∧
      ∀ rest, p.toList = '/' :: rest → rest.head? ≠ some '/' →
        (b.endpoint p = b.rootEndpoint p ↔ ∀ c ∈ b.url.path, c = '/') := by
  obtain ⟨hkind, hrigid, hnormal⟩ := Base.parse_isNormal hparse hscheme
  have hendpoint := Base.endpoint_eq hkind hrigid hnormal hp
  refine ⟨hendpoint, fun text' b' hparse' hsame hauthority hfragment => ?_,
    fun rest hrest hhead => ?_⟩
  · obtain ⟨hkind', hrigid', hnormal'⟩ := Base.parse_isNormal hparse' (by rwa [hsame])
    refine ⟨fun hslashes => ?_,
      Base.rootEndpoint_congr hrigid hrigid' hsame hauthority hfragment p⟩
    rw [hendpoint, Base.endpoint_eq hkind' hrigid' hnormal' hp]
    simp only [hslashes, hsame, hauthority, hfragment, hrigid, hrigid']
  · have hpath : IsNormal p.toList := by
      rw [hrest] at hp ⊢
      exact hp.isNormal
    have hname : ('/' :: rest).dropWhile (· = '/') = rest := by
      cases rest with
      | nil => rfl
      | cons c rest =>
        have hc : c ≠ '/' := by simpa using hhead
        simp [hc]
    rw [hendpoint, Base.rootEndpoint_eq hkind hrigid hpath, hrest, hname]
    simp [dropSuffix_eq_nil_iff]

/-- A base with credentials and a port, below a path with an encoded slash and an empty segment. -/
def servedBelow (slashes : List Char) (query : Option String) : Base where
  url := { scheme := "http", authority := some ⟨"me", some "pw", "host", some 8080⟩,
           path := "/a%2Fb//c".toList ++ slashes, query }

/-- It does not matter how the base ends, but it matters that it is not at the root. -/
theorem endpoints_compose_below :
    Base.parse "http://me:pw@host:8080/x/../a%2Fb//c//?q=1"
        = .ok (servedBelow ['/', '/'] (some "q=1")) ∧
      (servedBelow ['/', '/'] (some "q=1")).endpoint "/api/v1/labels"
        = (servedBelow [] none).endpoint "/api/v1/labels" ∧
      (servedBelow ['/', '/'] (some "q=1")).rootEndpoint "/api/v1/labels"
        = (servedBelow [] none).rootEndpoint "/api/v1/labels" ∧
      (servedBelow [] none).endpoint "/api/v1/labels"
        ≠ (servedBelow [] none).rootEndpoint "/api/v1/labels" ∧
      ((servedBelow [] none).endpoint "/api/v1/labels").write
        = "http://me:pw@host:8080/a%2Fb//c/api/v1/labels" := by
  have hparse : Base.parse "http://me:pw@host:8080/a%2Fb//c" = .ok (servedBelow [] none) := by
    decide +kernel
  have hslashes : Base.parse "http://me:pw@host:8080/x/../a%2Fb//c//?q=1"
      = .ok (servedBelow ['/', '/'] (some "q=1")) := by decide +kernel
  have hp : IsApiPath "/api/v1/labels".toList := by decide +kernel
  obtain ⟨hendpoint, hsame, hroot⟩ := endpoints_compose hparse (Or.inl rfl) hp
  obtain ⟨hbelow, hatRoot⟩ := hsame _ _ hslashes rfl rfl rfl
  refine ⟨hslashes, hbelow (by decide +kernel), hatRoot, ?_, ?_⟩
  · rw [Ne, hroot _ rfl (by decide)]
    intro hall
    have hletter : 'a' = '/' := hall 'a' (by decide)
    exact absurd hletter (by decide)
  · rw [hendpoint]
    decide +kernel

end PromqlServer.Prometheus
