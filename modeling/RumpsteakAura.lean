import RumpsteakAura.Text.Str
import RumpsteakAura.Collections.HashMap
import RumpsteakAura.Extensions.Registry
import RumpsteakAura.Extensions.Runs
import RumpsteakAura.Compiler.Grammar
import RumpsteakAura.Compiler.Composition
import RumpsteakAura.Compiler.Seeds
import RumpsteakAura.Compiler.Validation
import RumpsteakAura.Compiler.BaseGrammar
import RumpsteakAura.Compiler.Order
