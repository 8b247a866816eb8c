import Supermartingale.Symbolic

/-!
# Names with a meaning of their own

Most names of an expression are unknowns.
-/

namespace Supermartingale.Symbolic

def namedConstants : List (String × Constant) :=
  [("E", .euler), ("I", .imaginary), ("pi", .pi), ("oo", .infinity), ("zoo", .unbounded),
    ("nan", .undefined), ("GoldenRatio", .goldenRatio), ("EulerGamma", .eulerGamma),
    ("Catalan", .catalan), ("TribonacciConstant", .tribonacci)]

def otherNames : NameTable :=
  [('A', ["AccumBounds", "And", "Atom"]),
    ('B', ["Basic", "BlockDiagMatrix", "BlockMatrix"]),
    ('C', ["CC", "Circle", "Complement", "ComplexField", "ComplexRegion", "Complexes", "Contains", "Curve"]),
    ('D', ["Determinant", "DiagMatrix", "Dict", "DisjointUnion", "DomainMatrix"]),
    ('E', ["EX", "EXRAW", "Ellipse", "EmptySet", "Eq", "Equality", "Equivalent"]),
    ('F', ["FF", "FiniteField", "FiniteSet", "Function", "FunctionClass"]),
    ('G', ["GF", "Ge", "GreaterThan", "Gt"]),
    ('H', ["HadamardPower", "HadamardProduct"]),
    ('I', ["ITE", "Identity", "ImageSet", "ImmutableMatrix", "Implies", "Integers", "Intersection",
      "Interval", "Inverse"]),
    ('K', ["KroneckerProduct"]),
    ('L', ["Lambda", "Le", "LessThan", "Line", "Line2D", "Line3D", "Lt"]),
    ('M', ["MatAdd", "MatMul", "MatPow", "Matrix", "MatrixBase", "MatrixExpr", "MatrixSlice",
      "MatrixSymbol", "Monomial"]),
    ('N', ["N", "Nand", "Naturals", "Naturals0", "Ne", "Nor", "Not"]),
    ('O', ["OmegaPower", "OneMatrix", "Options", "Or", "Ordinal"]),
    ('P', ["POSform", "Parabola", "Permanent", "PermutationMatrix", "Plane", "Point", "Point2D",
      "Point3D", "Polygon", "PowerSet", "PrecisionExhausted", "ProductSet"]),
    ('Q', ["Q", "QQ", "QQ_I"]),
    ('R', ["RR", "Range", "Rationals", "Ray", "Ray2D", "RealField", "Reals", "RegularPolygon", "Rel"]),
    ('S', ["S", "SOPform", "Segment", "SeqAdd", "SeqFormula", "SeqMul", "SeqPer", "Set",
      "ShapeError", "Sieve", "StrictGreaterThan", "StrictLessThan", "SymmetricDifference",
      "SympifyError"]),
    ('T', ["Trace", "Transpose", "Triangle", "Tuple"]),
    ('U', ["Unequality", "Union", "UniversalSet"]),
    ('W', ["WildFunction"]),
    ('X', ["Xnor", "Xor"]),
    ('Z', ["ZZ", "ZZ_I", "ZeroMatrix"]),
    ('_', ["__build_class__", "__import__"]),
    ('a', ["abs", "aiter", "all", "anext", "any", "apart", "are_similar", "ask"]),
    ('b', ["banded", "besselsimp", "bin", "binomial_coefficients", "bool_map", "breakpoint"]),
    ('c', ["callable", "cancel", "casoratian", "cbrt", "ccode", "centroid", "checkodesol",
      "checkpdesol", "checksol", "chr", "classify_ode", "classify_pde", "closest_points",
      "cofactors", "collect", "collect_const", "combsimp", "comp", "compile", "compose",
      "composite", "compositepi", "construct_domain", "content", "convex_hull", "convolution",
      "cosine_transform", "count_ops", "count_roots", "covering_product", "cse", "cxxcode",
      "cycle_length", "cyclotomic_poly"]),
    ('d', ["decompogen", "decompose", "default_sort_key", "deg", "degree", "degree_list", "delattr",
      "denom", "derive_by_array", "diag", "diagonalize_vector", "diff", "difference_delta",
      "differentiate_finite", "dir", "discrete_log", "discriminant", "div", "divisor_count",
      "divisors", "divmod", "dotprint", "dsolve"]),
    ('e', ["egyptian_fraction", "epath", "euler_equations", "eval", "evaluate", "exec", "expand",
      "expand_complex", "expand_func", "expand_log", "expand_mul", "expand_multinomial",
      "expand_power_base", "expand_power_exp", "expand_trig", "exptrigsimp", "exquo", "eye"]),
    ('f', ["factor", "factor_list", "factor_nc", "factor_terms", "factorint", "factorrat",
      "failing_assumptions", "false", "farthest_points", "fft", "field", "field_isomorphism",
      "filldedent", "finite_diff_weights", "flatten", "format", "fourier_series",
      "fourier_transform", "fps", "fraction", "fu", "fwht"]),
    ('g', ["galois_group", "gammasimp", "gcd", "gcd_list", "gcd_terms", "gcdex",
      "get_contraction_structure", "getattr", "gff", "gff_list", "globals", "gosper_sum", "grevlex",
      "grlex", "groebner", "ground_roots", "group"]),
    ('h', ["half_gcdex", "hankel_transform", "has_dups", "has_variety", "hasattr", "hash",
      "hessian", "hex", "homogeneous_order", "horner", "hyperexpand", "hypersimilar", "hypersimp"]),
    ('i', ["id", "idiff", "ifft", "ifwht", "igrevlex", "igrlex", "ilex", "imageset",
      "init_printing", "init_session", "input", "integer_log", "integer_nthroot", "integrate",
      "interactive_traversal", "interpolate", "interpolating_poly", "interpolating_spline",
      "intersecting_product", "intersection", "intervals", "intt", "invert", "is_abundant",
      "is_amicable", "is_convex", "is_decreasing", "is_deficient", "is_increasing",
      "is_mersenne_prime", "is_monotonic", "is_nthpow_residue", "is_perfect", "is_primitive_root",
      "is_quad_residue", "is_strictly_decreasing", "is_strictly_increasing", "is_zero_dimensional",
      "isinstance", "isolate", "isprime", "issubclass", "iter", "itermonomials"]),
    ('j', ["jacobi_normalized", "jacobi_symbol", "jn_zeros", "jordan_cell", "jscode", "julia_code"]),
    ('k', ["kronecker_product", "kronecker_symbol", "kroneckersimp"]),
    ('l', ["laplace_transform", "latex", "lcm", "lcm_list", "legendre_poly", "legendre_symbol",
      "len", "lex", "limit", "limit_seq", "line_integrate", "linear_eq_to_matrix", "linsolve",
      "list2numpy", "locals", "logcombine"]),
    ('m', ["maple_code", "mathematica_code", "mathml", "max", "mellin_transform", "min",
      "minimal_polynomial", "minpoly", "mobius_transform", "mod_inverse", "monic",
      "multiline_latex", "multinomial_coefficients", "multiplicity"]),
    ('n', ["next", "nextprime", "nfloat", "nonlinsolve", "not_empty_in", "npartitions", "nroots",
      "nsimplify", "nsolve", "nth_power_roots_poly", "nthroot_mod", "ntt", "numbered_symbols",
      "numer"]),
    ('o', ["oct", "ode_order", "ones", "open", "ord", "ordered"]),
    ('p', ["pager_print", "parallel_poly_from_expr", "parse_expr", "pde_separate",
      "pde_separate_add", "pde_separate_mul", "pdiv", "pdsolve", "perfect_power", "periodicity",
      "pexquo", "piecewise_exclusive", "piecewise_fold", "plot", "plot_backends", "plot_implicit",
      "plot_parametric", "polarify", "pollard_pm1", "pollard_rho", "poly", "poly_from_expr",
      "posify", "postorder_traversal", "powdenest", "powsimp", "pprint", "pprint_try_use_unicode",
      "pprint_use_unicode", "pquo", "prem", "preorder_traversal", "pretty", "pretty_print",
      "preview", "prevprime", "prime", "prime_decomp", "prime_valuation", "primefactors", "primepi",
      "primerange", "primitive", "primitive_element", "primitive_root", "primorial", "print",
      "print_ccode", "print_fcode", "print_glsl", "print_gtk", "print_jscode", "print_latex",
      "print_maple_code", "print_mathml", "print_python", "print_rcode", "print_tree", "prod",
      "product", "proper_divisor_count", "proper_divisors", "public", "pycode", "python"]),
    ('q', ["quadratic_congruence", "quadratic_residues", "quo"]),
    ('r', ["rad", "radsimp", "randMatrix", "randprime", "rational_interpolate", "ratsimp",
      "ratsimpmodprime", "rcode", "rcollect", "real_root", "real_roots", "reduce_abs_inequalities",
      "reduce_abs_inequality", "reduce_inequalities", "refine", "refine_root", "rem", "repr",
      "residue", "resultant", "ring", "root", "rot_axis1", "rot_axis2", "rot_axis3",
      "rot_ccw_axis1", "rot_ccw_axis2", "rot_ccw_axis3", "rot_givens", "round", "round_two",
      "rsolve", "rsolve_hyper", "rsolve_poly", "rsolve_ratio", "rust_code"]),
    ('s', ["satisfiable", "separatevars", "sequence", "series", "setattr", "seterr", "sfield",
      "sieve", "signsimp", "simplify", "simplify_logic", "sine_transform", "singularities",
      "singularityintegrate", "smtlib_code", "solve", "solve_linear", "solve_linear_system",
      "solve_linear_system_LU", "solve_poly_inequality", "solve_poly_system",
      "solve_rational_inequalities", "solve_triangulated", "solve_undetermined_coeffs",
      "solve_univariate_inequality", "solveset", "sorted", "source", "sqf", "sqf_list", "sqf_norm",
      "sqf_part", "sqrt", "sqrt_mod", "sqrt_mod_iter", "sqrtdenest", "srepr", "sring", "sstr",
      "sstrrepr", "stationary_points", "sturm", "subresultants", "subsets", "substitution", "sum",
      "summation", "swinnerton_dyer_poly", "symarray", "symbols", "symmetric_poly", "symmetrize",
      "sympify"]),
    ('t', ["take", "tensorcontraction", "tensordiagonal", "tensorproduct", "terms_gcd", "textplot",
      "threaded", "timed", "to_cnf", "to_dnf", "to_nnf", "to_number_field", "together",
      "topological_sort", "total_degree", "trace", "trailing", "trigsimp", "true", "trunc"]),
    ('u', ["unflatten", "unpolarify", "use"]),
    ('v', ["validate", "var", "variations", "vars", "vectorize", "vfield", "viete", "vring"]),
    ('w', ["wronskian"]),
    ('x', ["xfield", "xring", "xthreaded"]),
    ('z', ["zeros"])]

inductive Meaning where
  | unknown
  | constant (c : Constant)
  | expressionKind
  | other
deriving DecidableEq, Repr

def meaningOf (s : String) : Meaning :=
  match namedConstants.find? (·.1 == s) with
  | some (_, c) => .constant c
  | none =>
    if expressionKinds.has s then .expressionKind
    else if otherNames.has s then .other
    else .unknown

end Supermartingale.Symbolic
