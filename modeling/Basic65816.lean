import Basic65816.Lexer.Agreement
import Basic65816.Lexer.Bounds
import Basic65816.Expression.Numeric
import Basic65816.Expression.StringComparison
import Basic65816.Expression.Surroundings
import Basic65816.Loops.ForNext
import Basic65816.Loops.Scan
import Basic65816.Program.Prompt
import Basic65816.Program.Room
import Basic65816.Listing.Constant
import Basic65816.Listing.Identifier
import Basic65816.Listing.Reenter
import Basic65816.Arithmetic.Multiplication
import Basic65816.Arithmetic.Random
import Basic65816.Builder.ShowDump
import Basic65816.Stack.Runs
import Basic65816.Strings.Search
import Basic65816.Strings.Filled
import Basic65816.Strings.Temporary
import Basic65816.Storage.Array
import Basic65816.Storage.Failure
import Basic65816.Storage.Runs
import Basic65816.Storage.StringAssign
import Basic65816.Listing.Walkers
import Basic65816.Screen.Print
import Basic65816.Semantics.Programs
