/-!
# Help — the usage and help texts
-/
namespace Retention
namespace CommandLine

/-- How the program is called. -/
def usage : String :=
  "usage: lazyheap [-h] [--mode \x7bneed,name,both\x7d] [--lo LO] [-m HI] [-n DROP]\n"
    ++ "                [--trace] [--no-sample] [-v]\n"

/-- What the program does and what its options mean. -/
def help : String :=
  usage
    ++ "\n"
    ++ "lazyheap: how much of cycle [lo..hi] is kept alive by call-by-need versus\n"
    ++ "call-by-name\n"
    ++ "\n"
    ++ "options:\n"
    ++ "  -h, --help            show this help message and exit\n"
    ++ "  --mode \x7bneed,name,both\x7d\n"
    ++ "                        evaluation discipline to run [default: both]\n"
    ++ "  --lo LO               first element of the range [default: 1]\n"
    ++ "  -m HI, --hi HI        last element of the range [default: 10]\n"
    ++ "  -n DROP, --drop DROP  number of elements to drop before reading the head\n"
    ++ "                        [default: 100]\n"
    ++ "  --trace               print the live cell count after every step\n"
    ++ "  --no-sample           only count live cells at the end (much faster for big\n"
    ++ "                        drops)\n"
    ++ "  -v, --verbose         enable debug logging\n"

end CommandLine
end Retention
