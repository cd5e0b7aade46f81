import OnePass.Text.Glyph

namespace OnePass.CommandLine

def versionText : Text := "trupl version 1.0.0\n"

def helpText : Text :=
  "NAME:\n" ++
  "   trupl - translate TruPL programs to TrAL assembly\n" ++
  "\n" ++
  "USAGE:\n" ++
  "   trupl [global options] command [command options] [arguments...]\n" ++
  "\n" ++
  "VERSION:\n" ++
  "   1.0.0\n" ++
  "\n" ++
  "COMMANDS:\n" ++
  "   compile, c  Translate file(s) to TrAL assembly\n" ++
  "   check       Check syntax and types of file(s) without writing output\n" ++
  "   run, r      Translate, assemble and execute a file (.tral files are assembled directly)\n" ++
  "   help, h     Shows a list of commands or help for one command\n" ++
  "\n" ++
  "GLOBAL OPTIONS:\n" ++
  "   --help, -h     show help\n" ++
  "   --version, -v  print the version\n"

end OnePass.CommandLine
